import Dragomand.HttpCache
import Dragomand.InstallFiles

/-!
# Panics of the catalogue

The assertion of `accepted_sets` holds: a group is only made for a version
that parses. That of `cached_get` holds as long as the server answers
`NotModified` to no request that was sent without a cached body (`Unasked`);
such an answer ends the call with a panic, whatever came before.
-/

namespace Dragomand

/-! ## `accepted_sets` -/

theorem checkedSet_ok {key : GroupKey} {version : MozVersion}
    (hparse : MozVersion.parse key.version = .ok version) (group : List ModelRecord) :
    ∃ set, checkedSet key group = .ok set := by
  unfold checkedSet
  split
  · rw [hparse]
    exact ⟨_, rfl⟩
  · exact ⟨none, rfl⟩

theorem foldlM_checkedSet {groups : List (GroupKey × List ModelRecord)}
    (hgroups : GroupsSupported groups) (best : List (GroupKey × ModelSet)) :
    groups.foldlM (fun best group =>
        (checkedSet group.1 group.2).map fun _ => best_group best group) best
      = (.ok (groups.foldl best_group best) : Except String _) := by
  induction groups generalizing best with
  | nil => rfl
  | cons group groups ih =>
      obtain ⟨version, hparse, -⟩ := hgroups group (List.mem_cons_self ..)
      obtain ⟨set, hset⟩ := checkedSet_ok hparse group.2
      rw [List.foldlM_cons, hset]
      exact ih (fun entry hentry => hgroups entry (List.mem_cons_of_mem _ hentry)) _

/-- The assertion of `accepted_sets` never fails. -/
theorem asserted_sets_eq (records : List ModelRecord) (env : FilterEnv) :
    asserted_sets records env = .ok (accepted_sets records env) := by
  have hgroups : GroupsSupported (records.foldl (group_record env) ([], [])).1 :=
    groupsSupported_foldl records (by simp [GroupsSupported])
  unfold asserted_sets accepted_sets
  dsimp only
  rw [foldlM_checkedSet hgroups]
  rfl

/-! ## Histories that end in a panic -/

def CacheOp.isGet : CacheOp → Bool
  | .get _ _ => true
  | _ => false

namespace http

/-- The last answer is `NotModified`, to a request without a cached body. -/
def Unasked (h : Fetched) : Prop :=
  ∃ h₁ url name etag, h = h₁ ++ revalidation url name none etag (.ok .notModified)

variable {h h₀ : Fetched}

theorem not_unasked_nil : ¬ Unasked [] := by
  rintro ⟨h₁, url, name, etag, heq⟩
  cases h₁ <;> cases heq

theorem unasked_revalidation {url name : String} {body etag : Option Bytes}
    {answer : Except HttpError FetchResult} :
    Unasked (h ++ revalidation url name body etag answer)
      ↔ body = none ∧ answer = .ok .notModified := by
  constructor
  · rintro ⟨h₁, url', name', etag', heq⟩
    have hsame := (List.append_inj' heq rfl).2
    simp only [revalidation, List.cons.injEq] at hsame
    obtain ⟨hread, -, hget, -⟩ := hsame
    cases hread
    cases hget
    exact ⟨rfl, rfl⟩
  · rintro ⟨rfl, rfl⟩
    exact ⟨h, url, name, etag, rfl⟩

theorem not_unasked_concat {op : CacheOp} {answer : op.Answer} (hop : op.isGet = false) :
    ¬ Unasked (h ++ [⟨op, answer⟩]) := by
  rintro ⟨h₁, url, name, etag, heq⟩
  have hlast := congrArg List.getLast? heq
  rw [List.getLast?_concat, List.getLast?_append] at hlast
  rw [show op = .get url (validator none etag) from congrArg Sigma.fst (Option.some.inj hlast)]
    at hop
  cases hop

theorem not_unasked_storing {name : String} {bytes : Bytes} {etag : Option String} :
    ¬ Unasked (h ++ storing name bytes etag) := by
  have hsplit : ∀ x : Sigma CacheOp.Answer,
      h ++ [⟨.create_dir_all, ()⟩, ⟨.write (.body name) bytes, ()⟩, x]
        = (h ++ [⟨.create_dir_all, ()⟩, ⟨.write (.body name) bytes, ()⟩]) ++ [x] := by simp
  cases etag with
  | some etag =>
      rw [storing, hsplit]
      exact not_unasked_concat rfl
  | none =>
      rw [storing, hsplit]
      exact not_unasked_concat rfl

end http

/-! ## Programs that panic so only -/

section Guarded

open http (Unasked)

variable {ε α β : Type}

def Panics (result : Except (Fault ε) α) : Prop := ∃ message, result = .error (.panic message)

/-- The program panics exactly when the history comes to an unasked answer. -/
def Guarded (p : Fetching ε α) : Prop :=
  ∀ h₀ h result, ¬ Unasked h₀ → p.Runs h result → (Panics result ↔ Unasked (h₀ ++ h))

theorem not_panics_ok {a : α} : ¬ Panics (.ok a : Except (Fault ε) α) := nofun

theorem not_panics_err {e : ε} : ¬ Panics (.error (.err e) : Except (Fault ε) α) := nofun

theorem guarded_pure (a : α) : Guarded (pure a : Fetching ε α) := by
  intro h₀ h result hnot hrun
  obtain ⟨rfl, rfl⟩ := Prog.runs_pure.mp hrun
  rw [List.append_nil]
  exact iff_of_false not_panics_ok hnot

theorem guarded_err (e : ε) : Guarded (.throw (.err e) : Fetching ε α) := by
  intro h₀ h result hnot hrun
  obtain ⟨rfl, rfl⟩ := Prog.runs_throw.mp hrun
  rw [List.append_nil]
  exact iff_of_false not_panics_err hnot

theorem guarded_map_err {δ : Type} (f : δ → ε) (result : Except δ α) :
    Guarded (map_err f result) := by
  cases result with
  | ok a => exact guarded_pure a
  | error e => exact guarded_err _

theorem guarded_perform {op : CacheOp} (hop : op.isGet = false) :
    Guarded (perform op : Fetching ε op.Answer) := by
  intro h₀ h result _ hrun
  obtain ⟨answer, h', rfl, hend⟩ := Prog.runs_op.mp hrun
  obtain ⟨rfl, rfl⟩ := Prog.runs_done.mp hend
  exact iff_of_false not_panics_ok (http.not_unasked_concat hop)

theorem Guarded.bind {p : Fetching ε α} {f : α → Fetching ε β} (hp : Guarded p)
    (hf : ∀ a, Guarded (f a)) : Guarded (p >>= f) := by
  intro h₀ h result hnot hrun
  rcases Prog.runs_bind.mp hrun with ⟨e, hfailed, rfl⟩ | ⟨h₁, h₂, a, rfl, hrun₁, hrun₂⟩
  · rw [← hp h₀ h _ hnot hfailed]
    exact exists_congr fun message => by simp
  · rw [← List.append_assoc]
    refine hf a (h₀ ++ h₁) h₂ result ?_ hrun₂
    rw [← hp h₀ h₁ _ hnot hrun₁]
    exact not_panics_ok

theorem guarded_cached_get (of : HttpError → ε) (url name : String) :
    Guarded (http.cached_get of url name) := by
  intro h₀ h result _ hrun
  cases http.runs_cached_get hrun with
  | current bytes etag =>
      rw [http.unasked_revalidation]
      exact iff_of_false not_panics_ok nofun
  | unasked etag =>
      rw [http.unasked_revalidation]
      exact iff_of_true ⟨_, rfl⟩ ⟨rfl, rfl⟩
  | stale bytes etag error =>
      rw [http.unasked_revalidation]
      exact iff_of_false not_panics_ok nofun
  | failed etag error =>
      rw [http.unasked_revalidation]
      exact iff_of_false not_panics_err nofun
  | fetched body etag bytes etag' =>
      rw [← List.append_assoc]
      exact iff_of_false not_panics_ok http.not_unasked_storing

theorem guarded_document (url name : String) (parse : Bytes → Except String α) :
    Guarded (RemoteSettingsProvider.document url name parse) :=
  (guarded_cached_get _ url name).bind fun _ => guarded_map_err _ _

theorem guarded_available (provider : RemoteSettingsProvider) : Guarded provider.available := by
  refine (guarded_document _ _ _).bind fun records => (guarded_document _ _ _).bind fun base_url =>
    (guarded_perform rfl).bind fun allow_prerelease => ?_
  rw [asserted_sets_eq]
  exact guarded_pure _

theorem guarded_install_pair (provider : RemoteSettingsProvider) (source target : String) :
    Guarded (provider.install_pair source target) := by
  refine (guarded_available provider).bind fun available => ?_
  cases pairSet available.sets source target with
  | none => exact guarded_err _
  | some set => exact (guarded_perform rfl).bind fun _ => guarded_map_err _ _

theorem guarded_check_for_updates (provider : RemoteSettingsProvider) (host : ModelHost)
    (stores : Stores) : Guarded (provider.check_for_updates host stores) :=
  (guarded_available provider).bind fun _ => (guarded_perform rfl).bind fun _ => guarded_pure _

theorem guarded_refresh (provider : RegistryProvider) : Guarded provider.refresh :=
  (guarded_cached_get _ _ _).bind fun _ => guarded_map_err _ _

end Guarded

/-! ## The theorem -/

/-- The runs of the program that return, an error or not, are those whose
histories meet `ok`. -/
def Answers {ε α : Type} (ok : Fetched → Prop) (p : Fetching ε α) : Prop :=
  ∀ h result, p.Runs h result → (¬ Panics result ↔ ok h)

theorem Guarded.answers {ε α : Type} {p : Fetching ε α} (hp : Guarded p) :
    Answers (fun h => ¬ http.Unasked h) p :=
  fun h result hrun => not_congr (hp [] h result http.not_unasked_nil hrun)

/-- **The catalogue does not panic**, whatever is in the cache and whatever
the server answers, unless it answers `NotModified` to a request that was
sent without a cached body. -/
theorem catalogue_answers_iff (provider : RemoteSettingsProvider) (registry : RegistryProvider)
    (host : ModelHost) (stores : Stores) (source target : String) :
    Answers (fun h => ¬ http.Unasked h) provider.available
      ∧ Answers (fun h => ¬ http.Unasked h) registry.refresh
      ∧ Answers (fun h => ¬ http.Unasked h) (provider.install_pair source target)
      ∧ Answers (fun h => ¬ http.Unasked h) (provider.check_for_updates host stores) :=
  ⟨(guarded_available provider).answers, (guarded_refresh registry).answers,
    (guarded_install_pair provider source target).answers,
    (guarded_check_for_updates provider host stores).answers⟩

/-- Reads every document as an empty one. -/
def emptiedProvider : RemoteSettingsProvider :=
  ⟨"https://example.test/v1", fun _ => .ok [], fun _ => .ok "https://example.test"⟩

/-- Both documents are cached, and the server answers `NotModified`. -/
def notModified : Fetched :=
  http.revalidation emptiedProvider.records_url "records" (some []) (some (utf8 "7"))
      (.ok .notModified)
    ++ http.revalidation emptiedProvider.server_url "server-info" (some []) none (.ok .notModified)
    ++ [⟨.prerelease, false⟩]

theorem catalogue_answers_notModified : ∃ result,
    (emptiedProvider.install_pair "bg" "de").Runs notModified result ∧ ¬ Panics result := by
  have hrun : (emptiedProvider.install_pair "bg" "de").Runs notModified
      (.error (.err (.noSuchPair "bg-de"))) := Prog.runs_of_play rfl
  have hanswers := catalogue_answers_iff emptiedProvider ⟨"", fun _ => .error ""⟩
    (catalogueHost hashA) ⟨[], ["u"], by decide⟩ "bg" "de"
  exact ⟨_, hrun, (hanswers.2.2.1 _ _ hrun).mpr (http.not_unasked_concat rfl)⟩

/-- With an empty cache, a server that answers `NotModified`. -/
theorem catalogue_panics : ∃ h, http.Unasked h ∧ (RemoteSettingsProvider.available
    ⟨"https://example.test/v1", fun _ => .error "", fun _ => .error ""⟩).Runs h
      (.error (.panic "etag was only sent with a cached body")) := by
  refine ⟨http.revalidation (RemoteSettingsProvider.records_url
    ⟨"https://example.test/v1", fun _ => .error "", fun _ => .error ""⟩) "records" none none
    (.ok .notModified), ⟨[], _, _, _, rfl⟩, ?_⟩
  refine Prog.runs_bind.mpr (Or.inl ⟨_, Prog.runs_bind.mpr (Or.inl ⟨_, ?_, rfl⟩), rfl⟩)
  exact .cons (.cons (.cons .nil))

end Dragomand
