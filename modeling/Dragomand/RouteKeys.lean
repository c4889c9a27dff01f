import Dragomand.RequestJobs

/-!
# The pair of a route

A request gets the route that it asks for: a load in progress is of the
pair that its future has asked for (`LoadsAsked`), and a registered route
is under its own pair.
-/

namespace Dragomand

/-- The future that a load in progress belongs to waits for it. -/
def LoadsAsked (d : Daemon) : Prop :=
  ∀ caller key pivot first second budget_mb,
    d.workers.lock = some (.loading caller key pivot first second budget_mb) →
    ∃ work allow_pivot budget_mb next, d.works[caller]? = some work
      ∧ work.prog = .op (.ensure_loaded key.1 key.2 allow_pivot budget_mb) next

section Step

variable {host : Host} {d d' : Daemon} {e : DaemonEvent}

theorem loadsAsked_step (h : d.Transition host e d') (hl : LoadsAsked d) : LoadsAsked d' := by
  intro caller key pivot first second budget_mb hlock'
  -- the load was in progress, and its future is not the one that goes on
  have hkept : ∀ {id : Nat} {work : Work} {op : Op} {next : op.Answer → Async Results}
      {answer : op.Answer} {d₀ : Daemon}, d.At id work (.op op next) →
      (∀ source target allow_pivot budget_mb,
        op ≠ .ensure_loaded source target allow_pivot budget_mb) →
      d₀.works = d.works → d'.works = (d₀.resume id op next answer).works →
      d.workers.lock = some (.loading caller key pivot first second budget_mb) →
      ∃ work allow_pivot budget_mb next, d'.works[caller]? = some work
        ∧ work.prog = .op (.ensure_loaded key.1 key.2 allow_pivot budget_mb) next := by
    intro id work op next answer d₀ hat hop hworks hworks' hlock
    obtain ⟨work₀, allow_pivot, budget_mb', next', hwork₀, hprog⟩ := hl _ _ _ _ _ _ hlock
    refine ⟨work₀, allow_pivot, budget_mb', next', ?_, hprog⟩
    rw [hworks', Daemon.resume_getElem? (hworks ▸ hat.future), if_neg, hworks, hwork₀]
    rintro rfl
    obtain rfl := Option.some.inj (hat.future.symm.trans hwork₀)
    rw [hat.prog] at hprog
    injection hprog with hprog
    exact hop _ _ _ _ hprog
  have hold : ∀ {event : WorkersEvent}, d.workers.step host.translate event = some d'.workers →
      (∀ caller source target allow_pivot budget_mb plan specs,
        event ≠ .ensure caller source target allow_pivot budget_mb plan specs) →
      d.workers.lock = some (.loading caller key pivot first second budget_mb) := by
    intro event hw hevent
    rcases (Workers.loading_of_step hw hlock').2 with hlock | ⟨_, _, _, heq, -⟩
    · exact hlock
    · exact absurd heq (hevent _ _ _ _ _ _ _)
  cases h with
  | receive | touch | answer | noObject | cancel | task | «return» | store | configure | sleep
  | counted | emptied | timed | exit => exact hl _ _ _ _ _ _ hlock'
  | @spawn h handler prog hhandler hcheck hfuture =>
      obtain ⟨work, allow_pivot, budget_mb', next, hwork, hprog⟩ := hl _ _ _ _ _ _ hlock'
      refine ⟨work, allow_pivot, budget_mb', next, ?_, hprog⟩
      show (d.works ++ [(⟨handler.method, [], prog⟩ : Work)])[caller]? = some work
      rw [List.getElem?_append_left (List.getElem?_eq_some_iff.mp hwork).1, hwork]
  | dropWork hevent hr hw =>
      rcases hw with rfl | hw | ⟨entry, hw⟩
      · exact hl _ _ _ _ _ _ hlock'
      · exact hl _ _ _ _ _ _ (hold hw (by rintro _ _ _ _ _ _ _ ⟨⟩))
      · exact hl _ _ _ _ _ _ (hold hw (by rintro _ _ _ _ _ _ _ ⟨⟩))
  | routes hfree hw =>
      refine hl _ _ _ _ _ _ (hold hw ?_)
      rintro _ _ _ _ _ _ _ rfl
      cases hfree
  | step hat hlocal =>
      refine hkept hat ?_ rfl rfl hlock'
      rintro _ _ _ _ rfl
      cases hlocal
  | progress hat hr => exact hkept hat (by rintro _ _ _ _ ⟨⟩) rfl rfl hlock'
  | hit hat hw | failed hat hw =>
      rcases Workers.ensure_loaded_cases hw with
        ⟨hfree, ⟨_, -, -, rfl⟩ | ⟨_, -, rfl⟩ | ⟨_, _, _, -, heq, -⟩⟩
      · cases hfree.symm.trans hlock'
      · cases hfree.symm.trans hlock'
      · cases heq
  | loading hat hw =>
      rcases (Workers.ensure_loaded_cases hw).2 with
        ⟨_, -, heq, -⟩ | ⟨_, heq, -⟩ | ⟨_, _, _, -, -, -, -, rfl⟩
      · cases heq
      · cases heq
      · cases hlock'
        exact ⟨_, _, _, _, hat.future, hat.prog⟩
  | loadFailed hat hw =>
      simp only [Workers.loaded] at hw
      split at hw <;> cases hw
      cases hlock'
  | loaded hat hlock hw =>
      simp only [Workers.loaded] at hw
      split at hw <;> cases hw
      cases hlock'
  | submit hat hw | drop hat hw =>
      exact hkept hat (by rintro _ _ _ _ ⟨⟩) rfl rfl (hold hw (by rintro _ _ _ _ _ _ _ ⟨⟩))

end Step

section Runs

variable {host : Host} {ok : Daemon → DaemonEvent → Prop} {config : Config} {d : Daemon}

theorem loadsAsked_of_reach
    (hreach : Machine.Reach (Daemon.step host) ok (Daemon.init config host) d) : LoadsAsked d :=
  hreach.invariant (by simp [LoadsAsked, Daemon.init, Workers.init])
    fun _ _ _ _ _ hs hl => loadsAsked_step (Daemon.step_cases hs).2 hl

theorem routed_of_reach
    (hreach : Machine.Reach (Daemon.step host) ok (Daemon.init config host) d) :
    Routed d.workers := by
  refine hreach.invariant (I := fun d => Routed d.workers) routed_init fun d e d' _ _ hs hr => ?_
  rcases (Daemon.step_cases hs).2.workers with hw | ⟨event, hw, -⟩
  · rwa [hw]
  · exact routed_step hw hr

/-- What `ensure_loaded` returns is a route of the pair. -/
theorem Daemon.Tells.route {d' : Daemon} {id entry budget_mb : Nat} {work : Work}
    {source target : String} {allow_pivot : Bool} {next : Except Error Nat → Async Results}
    {e : DaemonEvent} (hl : LoadsAsked d) (hr : Routed d.workers) (h : d.Transition host e d')
    (hwork : d.works[id]? = some work)
    (hprog : work.prog = .op (.ensure_loaded source target allow_pivot budget_mb) next)
    (htold : d.Tells host d' id (.ensure_loaded source target allow_pivot budget_mb) (.ok entry)) :
    ∃ e, d'.workers.heap[entry]? = some e ∧ e.key = (source, target) := by
  rcases htold with ⟨-, hlookup⟩ | ⟨hlock, rfl, measured, hloaded⟩
  · obtain ⟨e₀, he₀, hkey⟩ := hr.keys _ _ hlookup
    rcases h.workers with hw | ⟨event, hw, -⟩
    · exact ⟨e₀, hw ▸ he₀, hkey⟩
    · obtain ⟨e', he', hev⟩ := Workers.heap_persists hw he₀
      exact ⟨e', he', hev.route.1.trans hkey⟩
  · unfold Workers.loadsFor at hlock
    split at hlock
    · rename_i caller key pivot first second budget hw
      obtain rfl := of_decide_eq_true hlock
      obtain ⟨work₀, _, _, _, hwork₀, hprog₀⟩ := hl _ _ _ _ _ _ hw
      obtain rfl := Option.some.inj (hwork.symm.trans hwork₀)
      rw [hprog] at hprog₀
      injection hprog₀ with hop
      cases hop
      rw [Workers.loaded, hw] at hloaded
      rw [← Option.some.inj hloaded]
      exact ⟨_, List.getElem?_concat_length .., rfl⟩
    · cases hlock

end Runs

end Dragomand
