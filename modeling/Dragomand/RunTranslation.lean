import Dragomand.ProgramRuns
import Dragomand.Service

/-!
# Runs of `run_translation`

What a future asked and was told, seen from outside: the jobs that a route
took (`submissions`), what the routes replied, what they said of their
pivot, and what went to the output. A run of `run_translation` that
succeeds has one job, of all the segments, and what it returns is the reply
to it and the pivot of the route that had it.
-/

namespace Dragomand

/-- A history of a future. -/
abbrev Asked := Prog.History Op.Answer

/-- A job that the route of `entry` took; the reply comes to `receiver`. -/
structure Submission where
  entry : Nat
  receiver : Nat
  segments : List String

/-- The jobs that routes took. -/
def submissions (h : Asked) : List Submission :=
  h.filterMap fun
    | ⟨.submit entry segments _ _, some receiver⟩ => some ⟨entry, receiver, segments⟩
    | _ => none

/-- What came to the receivers of the routes. -/
def replies (h : Asked) : List (Nat × Nat × Option JobResult) :=
  h.filterMap fun
    | ⟨.receive entry receiver, result⟩ => some (entry, receiver, result)
    | _ => none

/-- The pivots of the routes asked for theirs. -/
def pivots (h : Asked) : List (Nat × Option String) :=
  h.filterMap fun
    | ⟨.pivot entry, pivot⟩ => some (entry, pivot)
    | _ => none

/-- The routes that `ensure_loaded` returned. -/
def loads (h : Asked) : List Nat :=
  h.filterMap fun
    | ⟨.ensure_loaded _ _ _ _, .ok entry⟩ => some entry
    | _ => none

/-- The texts read from the input. -/
def reads (h : Asked) : List String :=
  h.filterMap fun
    | ⟨.read_document _, .ok text⟩ => some text
    | _ => none

/-- The texts given to the output, written in full or not. -/
def writes (h : Asked) : List String :=
  h.filterMap fun
    | ⟨.write_document text, _⟩ => some text
    | _ => none

section Views

variable (h h' : Asked)

@[simp] theorem submissions_append : submissions (h ++ h') = submissions h ++ submissions h' :=
  List.filterMap_append

@[simp] theorem replies_append : replies (h ++ h') = replies h ++ replies h' :=
  List.filterMap_append

@[simp] theorem pivots_append : pivots (h ++ h') = pivots h ++ pivots h' :=
  List.filterMap_append

@[simp] theorem loads_append : loads (h ++ h') = loads h ++ loads h' :=
  List.filterMap_append

@[simp] theorem reads_append : reads (h ++ h') = reads h ++ reads h' :=
  List.filterMap_append

@[simp] theorem writes_append : writes (h ++ h') = writes h ++ writes h' :=
  List.filterMap_append

theorem mem_of_mem_submissions {h : Asked} {job : Submission} (hjob : job ∈ submissions h) :
    ∃ html priority, ⟨.submit job.entry job.segments html priority, some job.receiver⟩ ∈ h := by
  obtain ⟨x, hx, hmatch⟩ := List.mem_filterMap.mp hjob
  split at hmatch
  · cases hmatch
    exact ⟨_, _, hx⟩
  · cases hmatch

end Views

/-- The operations on the input and the output. -/
def Op.onDocument : Op → Bool
  | .read_document _ | .write_document _ => true
  | _ => false

theorem writes_eq_nil {h : Asked} (hquiet : ∀ x ∈ h, x.1.onDocument = false) : writes h = [] := by
  refine List.filterMap_eq_nil_iff.mpr fun x hx => ?_
  obtain ⟨op, answer⟩ := x
  have hop := hquiet _ hx
  cases op <;> first | rfl | cases hop

section Runs

variable {source target : String} {allow_pivot : Bool} {route : service.Route}
  {segments : List String} {attempts : Nat} {h : Asked}

theorem runs_ensure_loaded {result : Except Error Nat} :
    (ensure_loaded source target allow_pivot).Runs h result
      ↔ ∃ config, h = [⟨.config, config⟩,
          ⟨.ensure_loaded source target allow_pivot config.memory_budget_mb, result⟩] := by
  constructor
  · intro hrun
    obtain ⟨config, _, rfl, hload⟩ := Prog.runs_op.mp hrun
    obtain ⟨answer, _, rfl, hend⟩ := Prog.runs_op.mp hload
    obtain ⟨rfl, rfl⟩ := Prog.runs_done.mp hend
    exact ⟨config, rfl⟩
  · rintro ⟨config, rfl⟩
    exact .cons (.cons .nil)

/-- `run_translation` submits its segments, and leaves the document alone. -/
theorem only_run_translation :
    (run_translation route segments attempts).Only (fun op => op.onDocument = false
      ∧ ∀ entry segments' html priority, op = .submit entry segments' html priority →
        segments' = segments) := by
  have hquiet : ∀ {op : Op}, op.onDocument = false →
      (∀ entry segments' html priority, op ≠ .submit entry segments' html priority) →
      op.onDocument = false ∧ ∀ entry segments' html priority,
        op = .submit entry segments' html priority → segments' = segments :=
    fun hop hne => ⟨hop, fun _ _ _ _ heq => absurd heq (hne _ _ _ _)⟩
  induction attempts with
  | zero => exact Prog.only_throw
  | succ attempts ih =>
      unfold run_translation
      refine Prog.Only.bind ?_ fun entry => ?_
      · exact Prog.only_op (hquiet rfl nofun) fun _ => Prog.only_op (hquiet rfl nofun)
          fun _ => Prog.only_done
      · refine Prog.only_op ⟨rfl, fun _ _ _ _ heq => by cases heq; rfl⟩ fun receiver => ?_
        cases receiver with
        | none => exact Prog.only_op (hquiet rfl nofun) fun _ => ih
        | some receiver =>
            refine Prog.only_op (hquiet rfl nofun) fun outcome => ?_
            match outcome with
            | some (.ok translations) =>
                exact Prog.only_op (hquiet rfl nofun) fun _ =>
                  Prog.only_op (hquiet rfl nofun) fun _ => Prog.only_pure
            | some (.error .cancelled) | some (.error (.engine message)) | none =>
                exact Prog.only_op (hquiet rfl nofun) fun _ => Prog.only_throw

/-- One job of all the segments on the route loaded last, and the reply to
it. -/
structure Translates (segments : List String) (h : Asked) (translations : List Translation)
    (pivot : Option String) (entry receiver : Nat) : Prop where
  submissions : submissions h = [⟨entry, receiver, segments⟩]
  reply : (entry, receiver, some (.ok translations)) ∈ replies h
  pivots : pivots h = [(entry, pivot)]
  loaded : (loads h).getLast? = some entry

theorem runs_run_translation {translations : List Translation} {pivot : Option String}
    (hrun : (run_translation route segments attempts).Runs h (.ok (translations, pivot))) :
    ∃ entry receiver, Translates segments h translations pivot entry receiver := by
  induction attempts generalizing h with
  | zero => exact absurd (Prog.runs_throw.mp hrun).2 nofun
  | succ attempts ih =>
      unfold run_translation at hrun
      rcases Prog.runs_bind.mp hrun with ⟨e, -, heq⟩ | ⟨h₁, h₂, entry, rfl, hloaded, hsubmit⟩
      · cases heq
      obtain ⟨config, rfl⟩ := runs_ensure_loaded.mp hloaded
      obtain ⟨receiver, h₃, rfl, hrest⟩ := Prog.runs_ask_bind.mp hsubmit
      cases receiver with
      | none =>
          -- evicted before the submit: the route is looked up again
          obtain ⟨-, h₄, rfl, hagain⟩ := Prog.runs_ask_bind.mp hrest
          obtain ⟨entry', receiver', ht⟩ := ih hagain
          refine ⟨entry', receiver', ht.submissions, ht.reply, ht.pivots, ?_⟩
          show (entry :: loads h₄).getLast? = some entry'
          rw [List.getLast?_cons, ht.loaded]
          rfl
      | some receiver =>
          obtain ⟨outcome, h₄, rfl, hreply⟩ := Prog.runs_ask_bind.mp hrest
          match outcome with
          | some (.ok translations') =>
              obtain ⟨pivot', h₅, rfl, hdrop⟩ := Prog.runs_ask_bind.mp hreply
              obtain ⟨-, h₆, rfl, hend⟩ := Prog.runs_ask_bind.mp hdrop
              obtain ⟨rfl, heq⟩ := Prog.runs_pure.mp hend
              cases heq
              exact ⟨entry, receiver, rfl, by simp [replies], rfl, rfl⟩
          | some (.error .cancelled) | some (.error (.engine message)) | none =>
              obtain ⟨-, h₅, rfl, hend⟩ := Prog.runs_ask_bind.mp hreply
              exact absurd (Prog.runs_throw.mp hend).2 nofun

end Runs

end Dragomand
