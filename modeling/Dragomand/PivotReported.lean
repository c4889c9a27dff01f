import Dragomand.DaemonPivot
import Dragomand.JobBounds

/-!
# The pivot in the results

Every job of a successful request is followed by a look at the pivot of
its route (`PivotsSeen`), and `translate_fd` keeps what it saw last: the
results have a pivot if and only if the route of the last job has one. A
request that changed from a route through English to a direct one between
two chunks reports none.
-/

namespace Dragomand

/-! ## What a successful run has seen -/

/-- Every job was answered with translations, and the pivot of its route
was looked at. -/
structure PivotsSeen (h : Asked) : Prop where
  seen : (pivots h).map Prod.fst = (submissions h).map Submission.entry
  answered : ∀ job ∈ submissions h, ∃ translations,
    (job.entry, job.receiver, some (.ok translations)) ∈ replies h
  loaded : (loads h).getLast? = ((pivots h).map Prod.fst).getLast?

/-- The pivot seen last. -/
def lastPivot (h : Asked) : Option String := (pivots h).getLast?.bind Prod.snd

section Runs

variable {route : service.Route} {h h' : Asked}

theorem PivotsSeen.nil : PivotsSeen [] := ⟨rfl, nofun, rfl⟩

theorem PivotsSeen.append (hs : PivotsSeen h) (hs' : PivotsSeen h') : PivotsSeen (h ++ h') where
  seen := by simp [hs.seen, hs'.seen]
  answered := by
    intro job hjob
    rw [submissions_append] at hjob
    rcases List.mem_append.mp hjob with hjob | hjob
    · obtain ⟨translations, hreply⟩ := hs.answered job hjob
      exact ⟨translations, by simp [hreply]⟩
    · obtain ⟨translations, hreply⟩ := hs'.answered job hjob
      exact ⟨translations, by simp [hreply]⟩
  loaded := by simp [List.getLast?_append, hs.loaded, hs'.loaded]

theorem PivotsSeen.of_views (hs : PivotsSeen h) (hp : pivots h' = pivots h)
    (hj : submissions h' = submissions h) (hr : replies h' = replies h)
    (hl : loads h' = loads h) : PivotsSeen h' := by
  obtain ⟨hseen, hanswered, hloaded⟩ := hs
  rw [← hp, ← hj] at hseen
  rw [← hj, ← hr] at hanswered
  rw [← hp, ← hl] at hloaded
  exact ⟨hseen, hanswered, hloaded⟩

theorem Translates.pivotsSeen {segments : List String} {translations : List Translation}
    {pivot : Option String} {entry receiver : Nat}
    (ht : Translates segments h translations pivot entry receiver) : PivotsSeen h where
  seen := by rw [ht.pivots, ht.submissions]; rfl
  answered := by
    rw [ht.submissions]
    intro job hjob
    cases List.mem_singleton.mp hjob
    exact ⟨translations, ht.reply⟩
  loaded := by rw [ht.pivots, ht.loaded]; rfl

/-- The loop returns what it saw last, or what it began with. -/
theorem pivotsSeen_translateLines {wanted : List Nat} {steps done : Nat} {lines lines' : List String}
    {pivot pivot' : Option String}
    (hrun : (translateLines route wanted steps done lines pivot).Runs h (.ok (lines', pivot'))) :
    PivotsSeen h ∧ ((pivots h = [] ∧ pivot' = pivot) ∨ (pivots h ≠ [] ∧ pivot' = lastPivot h)) := by
  induction steps generalizing h done lines pivot with
  | zero =>
      obtain ⟨rfl, heq⟩ := Prog.runs_pure.mp hrun
      cases heq
      exact ⟨.nil, Or.inl ⟨rfl, rfl⟩⟩
  | succ steps ih =>
      unfold translateLines at hrun
      split at hrun
      · rcases Prog.runs_bind.mp hrun with
          ⟨e, -, heq⟩ | ⟨h₁, h₂, ⟨translations, pivot₁⟩, rfl, htranslated, hrest⟩
        · cases heq
        obtain ⟨entry, receiver, ht⟩ := runs_run_translation htranslated
        dsimp only at hrest
        split at hrest
        · cases (Prog.runs_throw.mp hrest).2
        obtain ⟨answer, h₃, rfl, hloop⟩ := Prog.runs_ask_bind.mp hrest
        obtain ⟨hseen₀, hlast⟩ := ih hloop
        have hprogress : PivotsSeen [⟨_, answer⟩] :=
          ⟨rfl, fun _ hjob => absurd hjob List.not_mem_nil, rfl⟩
        refine ⟨ht.pivotsSeen.append (hprogress.append hseen₀),
          Or.inr ⟨?_, ?_⟩⟩
        · rw [pivots_append, ht.pivots]
          exact List.cons_ne_nil _ _
        · have hseen : pivots (h₁ ++ ⟨_, answer⟩ :: h₃) = (entry, pivot₁) :: pivots h₃ := by
            rw [pivots_append, ht.pivots]
            rfl
          rcases hlast with ⟨hnone, rfl⟩ | ⟨hne, rfl⟩
          · rw [lastPivot, hseen, hnone]
            rfl
          · rw [lastPivot, lastPivot, hseen, List.getLast?_cons_of_ne_nil hne]
      · obtain ⟨rfl, heq⟩ := Prog.runs_pure.mp hrun
        cases heq
        exact ⟨.nil, Or.inl ⟨rfl, rfl⟩⟩

/-- The results say that the translation went through another language. -/
def Results.Reports (results : Results) : Prop := ∃ value, (result_key.PIVOT, value) ∈ results

theorem reports_pivotResult (pivot : Option String) :
    Results.Reports (pivotResult pivot) ↔ pivot.isSome = true := by
  cases pivot with
  | none => simp [Results.Reports, pivotResult]
  | some pivot => simp [Results.Reports, pivotResult]

theorem notMem_result {key : String} {value value' : OwnedValue} (hkey : key ≠ result_key.PIVOT) :
    (result_key.PIVOT, value) ∉ [(key, value')] :=
  fun hmem => hkey (congrArg Prod.fst (List.mem_singleton.mp hmem)).symm

/-- A successful run has seen every route, and reports the pivot of the last
one. -/
structure ReportsLast (h : Asked) (results : Results) : Prop where
  pivotsSeen : PivotsSeen h
  reports : results.Reports ↔ (lastPivot h).isSome = true

theorem reportsLast_translate {segments : List String} {want_sentences : Bool}
    {results : Results}
    (hrun : (translate route segments want_sentences).Runs h (.ok results)) :
    ReportsLast h results := by
  obtain ⟨start, h₀, rfl, hrun₀⟩ := Prog.runs_ask_bind.mp hrun
  rcases Prog.runs_bind.mp hrun₀ with
    ⟨e, -, heq⟩ | ⟨h₁, h₂, ⟨translations, pivot⟩, rfl, htranslated, hend⟩
  · cases heq
  obtain ⟨entry, receiver, ht⟩ := runs_run_translation htranslated
  obtain ⟨rfl, heq⟩ := Prog.runs_pure.mp hend
  cases heq
  rw [List.append_nil]
  have hstart : PivotsSeen [⟨.start, start⟩] := ⟨rfl, nofun, rfl⟩
  have hlast : lastPivot (⟨.start, start⟩ :: h₁) = pivot := by
    show (pivots h₁).getLast?.bind Prod.snd = pivot
    rw [ht.pivots]
    rfl
  refine ⟨hstart.append ht.pivotsSeen, ?_⟩
  rw [hlast, ← reports_pivotResult]
  simp only [Results.Reports, List.mem_append]
  refine exists_congr fun value => or_iff_right ?_
  rintro (hsentences | htranslations)
  · split at hsentences
    · exact notMem_result (by decide) hsentences
    · cases hsentences
  · exact notMem_result (by decide) htranslations

theorem reportsLast_translate_fd {host : Host} {results : Results}
    (hrun : (translate_fd host route).Runs h (.ok results)) : ReportsLast h results := by
  obtain ⟨start, h₀, rfl, hrun₀⟩ := Prog.runs_ask_bind.mp hrun
  rcases Prog.runs_bind.mp hrun₀ with ⟨e, -, heq⟩ | ⟨h₁, h₂, text, rfl, hread, hrest⟩
  · cases heq
  obtain rfl := runs_read.mp hread
  rcases Prog.runs_bind.mp hrest with
    ⟨e, -, heq⟩ | ⟨h₃, h₄, ⟨lines', pivot⟩, rfl, hloop, hwrite⟩
  · cases heq
  rcases Prog.runs_bind.mp hwrite with ⟨e, -, heq⟩ | ⟨h₅, h₆, written, rfl, hdone, hend⟩
  · cases heq
  obtain rfl := runs_write.mp hdone
  obtain ⟨rfl, heq⟩ := Prog.runs_pure.mp hend
  cases heq
  obtain ⟨hseen₀, hpivot⟩ := pivotsSeen_translateLines hloop
  -- the input and the output are no part of what is looked at here
  have hseen : pivots (⟨.start, start⟩ :: ([⟨.read_document MAX_DOCUMENT_BYTES, .ok text⟩]
      ++ (h₃ ++ ([⟨.write_document ("\n".intercalate lines'), .ok written⟩] ++ []))))
      = pivots h₃ := by
    show pivots (h₃ ++ [_]) = pivots h₃
    rw [pivots_append]
    exact List.append_nil _
  refine ⟨hseen₀.of_views hseen ?_ ?_ ?_, ?_⟩
  · show submissions (h₃ ++ [_]) = submissions h₃
    rw [submissions_append]
    exact List.append_nil _
  · show replies (h₃ ++ [_]) = replies h₃
    rw [replies_append]
    exact List.append_nil _
  · show loads (h₃ ++ [_]) = loads h₃
    rw [loads_append]
    exact List.append_nil _
  · have hlast : lastPivot h₃ = pivot := by
      rcases hpivot with ⟨hnone, rfl⟩ | ⟨-, rfl⟩
      · rw [lastPivot, hnone]
        rfl
      · rfl
    rw [lastPivot, hseen, ← lastPivot, hlast, ← reports_pivotResult]
    simp only [Results.Reports, List.mem_append]
    refine exists_congr fun value => or_iff_right ?_
    exact notMem_result (by decide)

end Runs

/-! ## Requests that have returned -/

theorem Requests.returned_cases {display : Error → String} {s s' : Requests} {e : RequestEvent}
    {id : Nat} {result : Except Error Results} (h : s.step display e = some s')
    (hmem : .returned id result ∈ s'.log) : .returned id result ∈ s.log ∨ e = .work id result := by
  cases Requests.step_cases h with
  | work hcall hphase =>
      rcases List.mem_cons.mp hmem with heq | hold
      · cases heq
        exact Or.inr rfl
      · exact Or.inl hold
  | accept | progress | decide | emit | unsent | remove | cancel | cancelNext =>
      rcases List.mem_cons.mp hmem with heq | hold
      · cases heq
      · exact Or.inl hold
  | enter | refuse | register | serverError | duplicate | rollback | progressLost | cancelWins
  | panic | emitLost | release | vanish | cancelClient => exact Or.inl hmem

/-- A future that has returned stays as it is. -/
theorem Daemon.Goes.done {d d' : Daemon} {e : DaemonEvent} {id : Nat} {work work' : Work}
    {result : Except Error Results} (h : d.Goes d' e id work work')
    (hdone : work.prog = .done result) : work' = work := by
  cases h with
  | same => rfl
  | answered hprog | hit hprog | loaded hprog => cases hdone.symm.trans hprog

section Returned

variable {host : Host} {d d' : Daemon} {e : DaemonEvent} {id : Nat}
  {result : Except Error Results}

theorem Daemon.Transition.returned (h : d.Transition host e d')
    (hmem : .returned id result ∈ d'.requests.log) : .returned id result ∈ d.requests.log
      ∨ ∃ work, d'.works[id]? = some work ∧ work.prog = .done result := by
  cases h with
  | receive | touch | answer | noObject | routes | step | hit | failed | loading | loadFailed
  | loaded | submit | drop | store | configure | sleep | counted | emptied | timed | exit | spawn =>
      exact Or.inl hmem
  | cancel hhandler hmethod hr =>
      exact (Requests.returned_cases hr hmem).imp_right nofun
  | progress hat hr => exact (Requests.returned_cases hr hmem).imp_right nofun
  | task htask hr =>
      refine (Requests.returned_cases hr hmem).imp_right fun heq => ?_
      rw [heq] at htask
      cases htask
  | dropWork hevent hr hw =>
      refine (Requests.returned_cases hr hmem).imp_right fun heq => ?_
      rcases hevent with hevent | hevent <;> cases hevent.symm.trans heq
  | «return» hat hr =>
      refine (Requests.returned_cases hr hmem).imp_right fun heq => ?_
      cases heq
      exact ⟨_, hat.future, hat.prog⟩

end Returned

section Reach

variable {host : Host} {ok : Daemon → DaemonEvent → Prop} {config : Config} {d : Daemon}

/-- What a request returned is what its future came to. -/
theorem done_of_returned
    (hreach : Machine.Reach (Daemon.step host) ok (Daemon.init config host) d) {id : Nat}
    {result : Except Error Results} (hmem : .returned id result ∈ d.requests.log) :
    ∃ work, d.works[id]? = some work ∧ work.prog = .done result := by
  refine hreach.invariant (I := fun d => .returned id result ∈ d.requests.log →
    ∃ work, d.works[id]? = some work ∧ work.prog = .done result) ?_ ?_ hmem
  · simp [Daemon.init, Requests.init]
  · intro d e d' _ _ hs ih hmem
    have htr := (Daemon.step_cases hs).2
    rcases htr.returned hmem with hold | hnew
    · obtain ⟨work, hwork, hdone⟩ := ih hold
      obtain ⟨work', hwork', hgoes⟩ := htr.works_self hwork
      obtain rfl := hgoes.done hdone
      exact ⟨_, hwork', hdone⟩
    · exact hnew

/-! ## Routes of two legs -/

/-- The route translates with two models, one after the other. -/
def PairEntry.twoLegs (entry : PairEntry) : Bool := entry.second.isSome

theorem route_specs_legs {disk : Disk} {source target : String} {pivot : Option String}
    {first : ModelSpec} {second : Option ModelSpec}
    (h : route_specs disk source target pivot = .ok (first, second)) :
    second.isSome = pivot.isSome := by
  unfold route_specs at h
  split at h
  · split at h
    · cases h
    · rename_i installed _
      cases hspec : model_spec installed <;> rw [hspec] at h <;> cases h
      rfl
  · split at h
    · cases h
    · cases h
    · rename_i installed installed' _ _
      cases hfirst : model_spec installed <;> rw [hfirst] at h
      · cases h
      · cases hsecond : model_spec installed' <;> rw [hsecond] at h <;> cases h
        rfl

/-- A route has two legs if and only if it has a pivot; so has one that is
being loaded. -/
structure Legged (w : Workers) : Prop where
  loading : ∀ caller key pivot first second budget_mb,
    w.lock = some (.loading caller key pivot first second budget_mb) →
    second.isSome = pivot.isSome
  entries : ∀ (k : Nat) (entry : PairEntry), w.heap[k]? = some entry →
    entry.twoLegs = entry.pivot.isSome

theorem legged_step
    {translate : ModelSpec → Option ModelSpec → Bool → List String → List Translation}
    {w w' : Workers} {e : WorkersEvent} (h : w.step translate e = some w') (hl : Legged w) :
    Legged w' where
  loading := by
    intro caller key pivot first second budget_mb hlock'
    rcases (Workers.loading_of_step h hlock').2 with hlock | ⟨_, _, _, -, -, -, hspecs⟩
    · exact hl.loading _ _ _ _ _ _ hlock
    · exact route_specs_legs hspecs
  entries := by
    intro k entry' hentry'
    rcases Workers.heap_cases h hentry' with
      ⟨entry, hentry, hev⟩ | ⟨-, _, _, _, _, _, _, _, hlock, rfl⟩
    · obtain ⟨-, hpivot, -, hsecond⟩ := hev.route
      rw [PairEntry.twoLegs, hpivot, hsecond]
      exact hl.entries k entry hentry
    · exact hl.loading _ _ _ _ _ _ hlock

theorem legged_of_reach
    (hreach : Machine.Reach (Daemon.step host) ok (Daemon.init config host) d) :
    Legged d.workers := by
  refine hreach.invariant (I := fun d => Legged d.workers)
    ⟨by simp [Daemon.init, Workers.init], by simp [Daemon.init, Workers.init]⟩ ?_
  intro d e d' _ _ hs hl
  rcases (Daemon.step_cases hs).2.workers with hw | ⟨event, hw, -⟩
  · rwa [hw]
  · exact legged_step hw hl

/-! ## The report -/

/-- Route `k` translated segments of the request. -/
def Daemon.TranslatedBy (d : Daemon) (id k : Nat) : Prop :=
  ∃ entry, d.workers.heap[k]? = some entry ∧ ∃ job ∈ entry.scheduler.accepted,
    job.cancelled = id ∧ job.remaining ≠ []
      ∧ ∃ translations, (job.reply, .ok translations) ∈ entry.scheduler.answered

/-- A route of two legs translated segments of the request. -/
def Daemon.TwoLegs (d : Daemon) (id : Nat) : Prop :=
  ∃ (k : Nat) (entry : PairEntry), d.workers.heap[k]? = some entry ∧ entry.twoLegs = true
    ∧ d.TranslatedBy id k

/-- The route that the request used last has two legs. -/
def Daemon.EndsTwoLegs (d : Daemon) (work : Work) : Prop :=
  ∃ (k : Nat) (entry : PairEntry), work.used.head? = some k ∧ d.workers.heap[k]? = some entry
    ∧ entry.twoLegs = true

/-- `Translate` and `TranslateFd`. -/
def Method.translates : Method → Bool
  | .translate _ _ _ | .translate_fd _ => true
  | _ => false

theorem Work.Ran.reportsLast {work : Work} {h : Asked} {results : Results}
    (hran : work.Ran host h) (hmethod : work.method.translates = true)
    (hdone : work.prog = .done (.ok results)) : ReportsLast h results := by
  obtain ⟨prog, hfuture, hpath⟩ := hran.path
  rw [hdone] at hpath
  cases hm : work.method with
  | translate route segments want_sentences =>
      rw [hm] at hfuture
      cases hfuture
      exact reportsLast_translate hpath
  | translate_fd route =>
      rw [hm] at hfuture
      cases hfuture
      exact reportsLast_translate_fd hpath
  | prepare_pair | install_pair | check_for_updates | quick | version | cancel =>
      rw [hm] at hmethod
      cases hmethod

/-- The routes that translated are those whose pivot was looked at. -/
theorem translatedBy_iff {work : Work} {h : Asked} {id k : Nat} (hran : work.Ran host h)
    (hb : d.Backs id h) (hs : PivotsSeen h) : d.TranslatedBy id k ↔ k ∈ (pivots h).map Prod.fst := by
  rw [hs.seen]
  constructor
  · rintro ⟨entry, hentry, job, hjob, hid, -⟩
    exact List.mem_map.mpr ⟨_, hb.accepted k entry job hentry hjob hid, rfl⟩
  · intro hk
    obtain ⟨job, hjob, rfl⟩ := List.mem_map.mp hk
    obtain ⟨entry, hentry, j, hj, hreply, hsegments, hid⟩ := hb.submitted job hjob
    obtain ⟨translations, hanswer⟩ := hs.answered job hjob
    obtain ⟨entry', hentry', hanswered⟩ := hb.replies _ _ _ hanswer
    obtain rfl := Option.some.inj (hentry.symm.trans hentry')
    exact ⟨entry, hentry, j, hj, hid, hsegments ▸ (hran.submission hjob).1, translations,
      hreply ▸ hanswered⟩

/-- **The pivot is reported** by a request that succeeds, when it was used,
if and only if the last route has it, or none. -/
theorem pivot_reported_iff
    (hreach : Machine.Reach (Daemon.step host) Machine.anyStep (Daemon.init config host) d)
    {id : Nat} {work : Work} {results : Results} (hwork : d.works[id]? = some work)
    (hmethod : work.method.translates = true)
    (hreturned : .returned id (.ok results) ∈ d.requests.log) :
    (results.Reports ↔ d.TwoLegs id) ↔ (d.EndsTwoLegs work ∨ ¬ d.TwoLegs id) := by
  obtain ⟨h, hran, hb⟩ := backs_of_reach hreach hwork
  obtain ⟨work', hwork', hdone⟩ := done_of_returned hreach hreturned
  obtain rfl := Option.some.inj (hwork.symm.trans hwork')
  have hlast := hran.reportsLast hmethod hdone
  have hlegs := (legged_of_reach hreach).entries
  have hused : work.used.head? = ((pivots h).map Prod.fst).getLast? := by
    rw [hran.used, List.head?_reverse, hlast.pivotsSeen.loaded]
  -- the last pivot is that of the last route
  have hends : (lastPivot h).isSome = true ↔ d.EndsTwoLegs work := by
    rw [lastPivot, Daemon.EndsTwoLegs, hused, List.getLast?_map]
    cases hseen : (pivots h).getLast? with
    | none => simp
    | some pair =>
        obtain ⟨k, pivot⟩ := pair
        obtain ⟨entry, hentry, rfl⟩ := hb.pivots k pivot (List.mem_of_getLast? hseen)
        simp [hentry, hlegs k entry hentry]
  have htwo : d.EndsTwoLegs work → d.TwoLegs id := by
    rintro ⟨k, entry, hk, hentry, htwo⟩
    rw [hused] at hk
    exact ⟨k, entry, hentry, htwo,
      (translatedBy_iff hran hb hlast.pivotsSeen).mpr (List.mem_of_getLast? hk)⟩
  rw [hlast.reports, hends]
  tauto

end Reach

/-- The claim of the documentation: a request that succeeds reports a pivot
if and only if a route of two legs translated segments of it. -/
def Daemon.PivotReported (d : Daemon) : Prop :=
  ∀ (id : Nat) (work : Work) (results : Results), d.works[id]? = some work →
    work.method.translates = true → .returned id (.ok results) ∈ d.requests.log →
    (results.Reports ↔ d.TwoLegs id)

/-- Route `k` has two legs and translated segments of the request. -/
def Daemon.twoLegsOn (d : Daemon) (id k : Nat) : Bool :=
  d.workers.heap[k]?.any fun entry => entry.twoLegs && entry.scheduler.accepted.any fun job =>
    job.cancelled = id && !job.remaining.isEmpty && entry.scheduler.answered.any fun a =>
      a.1 = job.reply && a.2.isOk

theorem Daemon.TwoLegs.of_on {d : Daemon} {id k : Nat} (h : d.twoLegsOn id k = true) :
    d.TwoLegs id := by
  obtain ⟨entry, hentry, h⟩ := (Option.any_eq_true _ _).mp h
  obtain ⟨htwo, h⟩ := Bool.and_eq_true_iff.mp h
  obtain ⟨job, hjob, h⟩ := List.any_eq_true.mp h
  obtain ⟨h, hanswer⟩ := Bool.and_eq_true_iff.mp h
  obtain ⟨hid, hne⟩ := Bool.and_eq_true_iff.mp h
  obtain ⟨⟨reply, result⟩, hmem, h⟩ := List.any_eq_true.mp hanswer
  obtain ⟨hreply, hok⟩ := Bool.and_eq_true_iff.mp h
  obtain rfl := of_decide_eq_true hreply
  cases result with
  | error e => cases hok
  | ok translations =>
      exact ⟨k, entry, hentry, htwo, entry, hentry, job, hjob, of_decide_eq_true hid,
        by simpa using hne, translations, hmem⟩

/-- A document of 65 lines, one more than a chunk has. -/
def document65 : String := "\n".intercalate (List.replicate 65 "a")

/-- Call 0 sends a document from Bulgarian to German, up to the first chunk. -/
def documentBgDe (text : String) (disk : Disk) : List DaemonEvent :=
  [.store disk, .receive ":1.7" "t" (.translate_fd ⟨"bg", "de", true, false, .interactive⟩),
    .touch 0, .handle 0, .requests (.register 0), .requests (.at 0 none), .work 0 .proceed,
    .work 0 (.read (.ok text))]

/-- A chunk of call 0 on route `k`, which it loads first. -/
def chunkOn (k : Nat) (disk : Disk) : List DaemonEvent :=
  [.work 0 .proceed, .work 0 (.ensure disk)] ++ loadRoute 0 ++ [.work 0 .proceed]
    ++ List.replicate 3 (.workers (.scheduler k .proceed))
    ++ [.workers (.scheduler k (.engine none))]
    ++ List.replicate 2 (.workers (.scheduler k .proceed)) ++ [.workers (.stamp k)]
    ++ List.replicate 4 (.work 0 .proceed)

/-- The output takes the document, and call 0 returns. -/
def endDocument : List DaemonEvent := [.work 0 (.written (.ok ())), .work 0 .proceed]

/-- Route `0` of the pair is evicted. -/
def evictBgDe : List DaemonEvent :=
  [.workers (.evict .unpinnedScan), .workers (.scan ("bg", "de")), .workers .advance,
    .workers .advance]

/-- A document translated through English in two chunks, on a route each. -/
theorem pivot_reported_iff_document :
    ∃ d work, Machine.Reach (Daemon.step echoHost) Machine.anyStep (Daemon.init .default echoHost) d
      ∧ d.works[0]? = some work ∧ work.method.translates = true
      ∧ (d.twoLegsOn 0 0 = true ∧ d.twoLegsOn 0 1 = true)
      ∧ .returned 0 (.ok [("lines", .u32 65), ("pivot", .str "en")]) ∈ d.requests.log
      ∧ ((Results.Reports [("lines", .u32 65), ("pivot", .str "en")] ↔ d.TwoLegs 0)
        ↔ (d.EndsTwoLegs work ∨ ¬ d.TwoLegs 0)) := by
  obtain ⟨d, hreach, hd⟩ := Machine.exists_reach_of_run (Daemon.step echoHost) Machine.anyStep
    (Daemon.init .default echoHost)
    (documentBgDe document65 (diskOf [("bg", "en"), ("en", "de")])
      ++ chunkOn 0 (diskOf [("bg", "en"), ("en", "de")]) ++ evictBgDe
      ++ chunkOn 1 (diskOf [("bg", "en"), ("en", "de")]) ++ endDocument)
    (fun d : Daemon => decide (
      .returned 0 (.ok [("lines", .u32 65), ("pivot", .str "en")]) ∈ d.requests.log
        ∧ (d.twoLegsOn 0 0 = true ∧ d.twoLegsOn 0 1 = true)
        ∧ (d.works[0]?.any fun work => work.method.translates) = true))
    (by decide +kernel)
  obtain ⟨hreturned, htwo, hworks⟩ := of_decide_eq_true hd
  obtain ⟨work, hwork, hmethod⟩ := (Option.any_eq_true _ _).mp hworks
  exact ⟨d, work, hreach, hwork, hmethod, htwo, hreturned,
    pivot_reported_iff hreach hwork hmethod hreturned⟩

/-- After the first chunk, on a route through English, the direct model is
installed and the route evicted: the last line is translated directly. -/
theorem pivot_not_reported :
    ∃ d, Machine.Reach (Daemon.step echoHost) Machine.anyStep (Daemon.init .default echoHost) d
      ∧ (.returned 0 (.ok [("lines", .u32 65)]) ∈ d.requests.log
        ∧ d.twoLegsOn 0 0 = true)
      ∧ ¬ d.PivotReported := by
  obtain ⟨d, hreach, hd⟩ := Machine.exists_reach_of_run (Daemon.step echoHost) Machine.anyStep
    (Daemon.init .default echoHost)
    (documentBgDe document65 (diskOf [("bg", "en"), ("en", "de")])
      ++ chunkOn 0 (diskOf [("bg", "en"), ("en", "de")])
      ++ .store (diskOf [("bg", "en"), ("en", "de"), ("bg", "de")]) :: evictBgDe
      ++ chunkOn 1 (diskOf [("bg", "en"), ("en", "de"), ("bg", "de")]) ++ endDocument)
    (fun d : Daemon => decide (.returned 0 (.ok [("lines", .u32 65)]) ∈ d.requests.log
      ∧ d.twoLegsOn 0 0 = true
      ∧ (d.works[0]?.any fun work => work.method.translates) = true))
    (by decide +kernel)
  obtain ⟨hreturned, htwo, hworks⟩ := of_decide_eq_true hd
  obtain ⟨work, hwork, hmethod⟩ := (Option.any_eq_true _ _).mp hworks
  refine ⟨d, hreach, ⟨hreturned, htwo⟩, fun h => ?_⟩
  obtain ⟨value, hvalue⟩ := (h 0 work _ hwork hmethod hreturned).mpr (.of_on htwo)
  exact notMem_result (by decide) hvalue

end Dragomand
