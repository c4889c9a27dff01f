import Dragomand.HttpCache
import Dragomand.Machine

/-!
# Coherence of the HTTP cache

Any number of calls of `cached_get` on one name, one file operation at a
time. The file system has the two files as names of inodes: `fs::write` opens
its file, which is empty then, writes it piece by piece, and may fail at any
point; the calls end with the process (`kill`), and the files stay.

A call that is between its first write and the end of its last file operation
is storing. While none is, an ETag in the cache is that of the body next to
it (`Agree`), in every run in which stores and reads do not overlap, and no
write fails or is cut short in a way that leaves an ETag behind (`Orderly`).
-/

namespace Dragomand

/-! ## The machine -/

/-- A call, with what it has read and what the server has sent. `opened` is
the inode of the file that is being written, with the number of bytes
written. -/
structure CachedCall where
  prog : Fetching HttpError Bytes
  cached_body : Option Bytes
  sent : Option Bytes
  opened : Option (Nat × Nat)

/-- `log` has what was returned for `NotModified`, with the ETag that the
request was sent with. -/
structure Caching where
  inodes : List Bytes
  names : CacheFile → Option Nat
  calls : List CachedCall
  log : List (String × Bytes)

inductive CallEvent where
  /-- the file is read, unless that fails -/
  | read (ok : Bool)
  | answer (result : Except HttpError FetchResult)
  | «open»
  | piece (n : Nat)
  | done
  | fail

inductive CachingEvent where
  | call
  | step (id : Nat) (event : CallEvent)
  | kill

/-- The next operation. -/
def CachedCall.op (call : CachedCall) : Option CacheOp :=
  match call.prog with
  | .op op _ => some op
  | .done _ => none

/-- `bytes` at an offset of a file. -/
def writeAt (offset : Nat) (bytes content : Bytes) : Bytes :=
  (content ++ List.replicate (offset - content.length) 0).take offset ++ bytes
    ++ content.drop (offset + bytes.length)

namespace Caching

/-- An empty cache directory. -/
def init : Caching := ⟨[], fun _ => none, [], []⟩

def content (s : Caching) (file : CacheFile) : Option Bytes :=
  (s.names file).bind fun inode => s.inodes[inode]?

def set (s : Caching) (id : Nat) (call : CachedCall) : Caching :=
  { s with calls := s.calls.set id call }

/-- `served` has the body that an ETag identifies: no other is sent with it,
and `NotModified` is an answer to an ETag that was. -/
def Honest (served : String → Option Bytes) :
    Option String → Except HttpError FetchResult → Prop
  | some etag, .ok .notModified => (served etag).isSome
  | _, .ok (.fetched bytes (some etag)) => served etag = some bytes
  | _, _ => True

instance (served : String → Option Bytes) (if_none_match : Option String)
    (result : Except HttpError FetchResult) : Decidable (Honest served if_none_match result) :=
  match if_none_match, result with
  | some _, .ok .notModified => inferInstanceAs (Decidable (_ = true))
  | some _, .ok (.fetched _ (some _)) | none, .ok (.fetched _ (some _)) =>
      inferInstanceAs (Decidable (_ = _))
  | none, .ok .notModified | some _, .ok (.fetched _ none) | none, .ok (.fetched _ none)
  | some _, .error _ | none, .error _ => .isTrue trivial

/-- What is returned for `NotModified`. -/
def returned (if_none_match : Option String) (result : Except HttpError FetchResult)
    (prog : Fetching HttpError Bytes) : List (String × Bytes) :=
  match if_none_match, result, prog with
  | some etag, .ok .notModified, .done (.ok bytes) => [(etag, bytes)]
  | _, _, _ => []

/-- The bytes of a fresh answer. -/
def freshBytes : Except HttpError FetchResult → Option Bytes
  | .ok (.fetched bytes _) => some bytes
  | _ => none

/-- `File::create` -/
def create (s : Caching) (file : CacheFile) : Caching × Nat :=
  match s.names file with
  | some inode => ({ s with inodes := s.inodes.set inode [] }, inode)
  | none =>
      ({ s with inodes := s.inodes ++ [[]]
                names := Function.update s.names file (some s.inodes.length) }, s.inodes.length)

variable (url name : String) (served : String → Option Bytes)

/-- A step of call `id`. -/
def act (s : Caching) (id : Nat) (call : CachedCall) : CallEvent → Option Caching
  | .read ok =>
      match call.prog with
      | .op (.read file) next =>
          let bytes := if ok then s.content file else none
          some (s.set id { call with
            prog := next bytes
            cached_body := if file = .body name then bytes else call.cached_body })
      | _ => none
  | .answer result =>
      match call.prog with
      | .op (.get _ if_none_match) next =>
          if Honest served if_none_match result then
            some { s.set id { call with prog := next result, sent := freshBytes result } with
              log := s.log ++ returned if_none_match result (next result) }
          else none
      | _ => none
  | .open =>
      match call.prog, call.opened with
      | .op (.write file _) _, none =>
          let (s, inode) := s.create file
          some (s.set id { call with opened := some (inode, 0) })
      | _, _ => none
  | .piece n =>
      match call.prog, call.opened with
      | .op (.write _ bytes) _, some (inode, written) =>
          if 0 < n ∧ written + n ≤ bytes.length then
            let piece := (bytes.drop written).take n
            some (set { s with inodes := s.inodes.modify inode (writeAt written piece) } id
              { call with opened := some (inode, written + n) })
          else none
      | _, _ => none
  | .done =>
      match call.prog, call.opened with
      | .op .create_dir_all next, _ => some (s.set id { call with prog := next () })
      | .op (.write _ bytes) next, some (_, written) =>
          if written = bytes.length then
            some (s.set id { call with prog := next (), opened := none })
          else none
      | .op (.remove_file file) next, _ =>
          some (set { s with names := Function.update s.names file none }
            id { call with prog := next () })
      | _, _ => none
  | .fail =>
      match call.prog with
      | .op .create_dir_all next => some (s.set id { call with prog := next () })
      | .op (.write _ _) next | .op (.remove_file _) next =>
          some (s.set id { call with prog := next (), opened := none })
      | _ => none

def step (s : Caching) : CachingEvent → Option Caching
  | .call => some { s with
      calls := s.calls ++ [⟨http.cached_get id url name, none, none, none⟩] }
  | .step id event => s.calls[id]?.bind fun call => s.act name served id call event
  | .kill => some { s with calls := [] }

/-! ## Orderly runs -/

end Caching

def CacheOp.isWrite : CacheOp → Bool
  | .write _ _ => true
  | _ => false

/-- It changes the files. -/
def CacheOp.stores : CacheOp → Bool
  | .write _ _ | .remove_file _ => true
  | _ => false

def CacheOp.readsEtag : CacheOp → Bool
  | .read (.etag _) => true
  | _ => false

/-- From its first write to the end of its last file operation. -/
def CachedCall.storing (call : CachedCall) : Bool := call.op.any CacheOp.stores

/-- It has read a body, and is to read the ETag. -/
def CachedCall.between (call : CachedCall) : Bool :=
  call.op.any CacheOp.readsEtag && call.cached_body.isSome

/-- It is to write an ETag after the body. -/
def CachedCall.tagged (call : CachedCall) : Bool :=
  match call.prog with
  | .op (.write (.body _) _) next =>
      match next () with
      | .op (.write (.etag _) _) _ => true
      | _ => false
  | _ => false

namespace Caching

/-- No call is storing. -/
def Quiet (s : Caching) : Prop := ∀ call ∈ s.calls, call.storing = false

instance (s : Caching) : Decidable s.Quiet :=
  inferInstanceAs (Decidable (∀ call ∈ s.calls, _))

/-- No call is between its two reads. -/
def Unread (s : Caching) : Prop := ∀ call ∈ s.calls, call.between = false

instance (s : Caching) : Decidable s.Unread :=
  inferInstanceAs (Decidable (∀ call ∈ s.calls, _))

variable (name : String)

def orderlyCall (s : Caching) (call : CachedCall) (event : CallEvent) : Bool :=
  match event, call.op with
  | .read _, some (.read (.body _)) => s.Quiet
  -- the first write is next
  | .done, some .create_dir_all | .fail, some .create_dir_all => s.Quiet && s.Unread
  | .fail, some (.write (.body _) _) => !call.tagged
  | .fail, some (.write (.etag _) _) | .fail, some (.remove_file _) => s.content (.etag name) = none
  | _, _ => true

/-- No call begins to read while another is storing, or to store while another
is storing or between its reads; the body that an ETag is to follow is
written; an operation on the ETag fails, and the process ends while a call is
storing, only where there is no ETag. -/
def Orderly (s : Caching) : CachingEvent → Prop
  | .call => True
  | .step id event => s.calls[id]?.all fun call => s.orderlyCall name call event
  | .kill => s.content (.etag name) = none ∨ s.Quiet

instance (s : Caching) (e : CachingEvent) : Decidable (s.Orderly name e) :=
  match e with
  | .call => .isTrue trivial
  | .step _ _ => inferInstanceAs (Decidable (_ = true))
  | .kill => inferInstanceAs (Decidable (_ ∨ _))

/-! ## Where a call is -/

section Invariant

variable {url name : String} {served : String → Option Bytes} {s s' : Caching} {call : CachedCall}

/-- The last file operation of a call. -/
def lastWrite (name : String) (bytes : Bytes) : Option String → Fetching HttpError Bytes
  | some etag => .op (.write (.etag name) (utf8 etag)) fun _ => .done (.ok bytes)
  | none => .op (.remove_file (.etag name)) fun _ => .done (.ok bytes)

/-- What is left of a call, and what it knows by then. -/
inductive CachedAt (url name : String) (served : String → Option Bytes) (call : CachedCall) : Prop
  | reading (hprog : call.prog = .op (.read (.body name)) fun cached_body =>
      .op (.read (.etag name)) fun etag =>
        .op (.get url (http.validator cached_body etag)) (http.answered id name cached_body))
  | readingEtag (hprog : call.prog = .op (.read (.etag name)) fun etag =>
      .op (.get url (http.validator call.cached_body etag))
        (http.answered id name call.cached_body))
  | getting (if_none_match : Option String)
      (hprog : call.prog = .op (.get url if_none_match) (http.answered id name call.cached_body))
      (hagree : ∀ etag, if_none_match = some etag →
        ∃ body, call.cached_body = some body ∧ ∀ bytes, served etag = some bytes → body = bytes)
  | making (bytes : Bytes) (etag : Option String)
      (hprog : call.prog = .op .create_dir_all fun _ =>
        .op (.write (.body name) bytes) fun _ => lastWrite name bytes etag)
      (hsent : call.sent = some bytes) (hserved : ∀ e, etag = some e → served e = some bytes)
  | writing (bytes : Bytes) (etag : Option String)
      (hprog : call.prog = .op (.write (.body name) bytes) fun _ => lastWrite name bytes etag)
      (hsent : call.sent = some bytes) (hserved : ∀ e, etag = some e → served e = some bytes)
  | ending (bytes : Bytes) (etag : Option String) (hprog : call.prog = lastWrite name bytes etag)
      (hsent : call.sent = some bytes) (hserved : ∀ e, etag = some e → served e = some bytes)
  | returned (result : Except (Fault HttpError) Bytes) (hprog : call.prog = .done result)

/-- What an answer leaves to do. -/
theorem answered_cases (name : String) (cached_body : Option Bytes)
    (result : Except HttpError FetchResult) :
    (∃ bytes etag, result = .ok (.fetched bytes etag)
        ∧ http.answered id name cached_body result = .op .create_dir_all fun _ =>
          .op (.write (.body name) bytes) fun _ => lastWrite name bytes etag)
      ∨ ∃ answer, http.answered id name cached_body result = .done answer
        ∧ (result = .ok .notModified → ∀ bytes, answer = .ok bytes → cached_body = some bytes) := by
  match result, cached_body with
  | .ok (.fetched bytes etag), _ =>
      refine Or.inl ⟨bytes, etag, rfl, ?_⟩
      cases etag <;> rfl
  | .ok .notModified, some body => exact Or.inr ⟨.ok body, rfl, fun _ _ heq => by cases heq; rfl⟩
  | .ok .notModified, none => exact Or.inr ⟨_, rfl, fun _ _ heq => by cases heq⟩
  | .error error, some body => exact Or.inr ⟨_, rfl, nofun⟩
  | .error error, none => exact Or.inr ⟨_, rfl, nofun⟩

theorem storing_lastWrite {bytes : Bytes} {etag : Option String}
    (hprog : call.prog = lastWrite name bytes etag) : call.storing = true := by
  unfold CachedCall.storing CachedCall.op
  rw [hprog]
  cases etag <;> rfl

/-! ## Files -/

/-- The two names are of different inodes. -/
structure Named (s : Caching) : Prop where
  inode : ∀ file inode, s.names file = some inode → inode < s.inodes.length
  apart : ∀ file file' inode, s.names file = some inode → s.names file' = some inode → file = file'

theorem content_eq_some {file : CacheFile} {inode : Nat} {bytes : Bytes}
    (hname : s.names file = some inode) (hbytes : s.inodes[inode]? = some bytes) :
    s.content file = some bytes := by
  unfold content
  rw [hname, Option.bind_some, hbytes]

theorem content_congr {s' : Caching} {file : CacheFile} (hnames : s'.names = s.names)
    (hinodes : s'.inodes = s.inodes) : s'.content file = s.content file := by
  unfold content
  rw [hnames, hinodes]

/-- `File::create` truncates the file, and leaves the other. -/
theorem Named.create (hn : s.Named) (file : CacheFile) :
    (s.create file).1.Named ∧ (s.create file).1.names file = some (s.create file).2
      ∧ (s.create file).1.inodes[(s.create file).2]? = some []
      ∧ ∀ file', file' ≠ file → (s.create file).1.content file' = s.content file' := by
  unfold Caching.create
  cases hname : s.names file with
  | some inode =>
      have hinode := hn.inode file inode hname
      refine ⟨⟨fun file' inode' h => ?_, hn.apart⟩, hname, ?_, fun file' hne => ?_⟩
      · rw [List.length_set]
        exact hn.inode file' inode' h
      · rw [List.getElem?_set_self hinode]
      · refine Option.bind_congr fun inode' h => List.getElem?_set_ne ?_
        rintro rfl
        exact hne (hn.apart _ _ _ h hname)
  | none =>
      refine ⟨⟨fun file' inode' h => ?_, fun file₁ file₂ inode' h₁ h₂ => ?_⟩,
        Function.update_self .., List.getElem?_concat_length .., fun file' hne => ?_⟩
      · rw [List.length_append, List.length_singleton]
        dsimp only at h
        rw [Function.update_apply] at h
        split at h
        · cases h
          exact Nat.lt_succ_self _
        · exact (hn.inode file' inode' h).trans (Nat.lt_succ_self _)
      · have hold : ∀ {file'}, file' ≠ file → Function.update s.names file (some s.inodes.length)
            file' = some inode' → s.names file' = some inode' ∧ inode' < s.inodes.length := by
          intro file' hne h
          rw [Function.update_of_ne hne] at h
          exact ⟨h, hn.inode file' inode' h⟩
        dsimp only at h₁ h₂
        by_cases hf₁ : file₁ = file <;> by_cases hf₂ : file₂ = file
        · rw [hf₁, hf₂]
        · obtain ⟨-, hlt⟩ := hold hf₂ h₂
          rw [hf₁, Function.update_self] at h₁
          cases h₁
          exact absurd hlt (lt_irrefl _)
        · obtain ⟨-, hlt⟩ := hold hf₁ h₁
          rw [hf₂, Function.update_self] at h₂
          cases h₂
          exact absurd hlt (lt_irrefl _)
        · exact hn.apart _ _ _ (hold hf₁ h₁).1 (hold hf₂ h₂).1
      · unfold content
        dsimp only
        rw [Function.update_of_ne hne]
        exact Option.bind_congr fun inode' h => List.getElem?_append_left (hn.inode _ _ h)

/-- A piece is written to one file. -/
theorem Named.piece (hn : s.Named) {file : CacheFile} {inode : Nat} (f : Bytes → Bytes)
    (hname : s.names file = some inode) :
    ({ s with inodes := s.inodes.modify inode f } : Caching).Named
      ∧ ∀ file', file' ≠ file →
        ({ s with inodes := s.inodes.modify inode f } : Caching).content file' = s.content file' := by
  refine ⟨⟨fun file' inode' h => ?_, hn.apart⟩, fun file' hne => ?_⟩
  · rw [List.length_modify]
    exact hn.inode file' inode' h
  · refine Option.bind_congr fun inode' h => List.getElem?_modify_ne _ _ ?_
    rintro rfl
    exact hne (hn.apart _ _ _ h hname)

theorem Named.remove (hn : s.Named) (file : CacheFile) :
    ({ s with names := Function.update s.names file none } : Caching).Named
      ∧ ({ s with names := Function.update s.names file none } : Caching).content file = none := by
  have hold : ∀ {file' inode}, Function.update s.names file none file' = some inode →
      s.names file' = some inode := by
    intro file' inode h
    rw [Function.update_apply] at h
    split at h
    · cases h
    · exact h
  refine ⟨⟨fun file' inode h => hn.inode file' inode (hold h),
    fun _ _ _ h₁ h₂ => hn.apart _ _ _ (hold h₁) (hold h₂)⟩, ?_⟩
  unfold content
  dsimp only
  rw [Function.update_self]
  rfl

theorem writeAt_take {bytes : Bytes} {written n : Nat} (hle : written + n ≤ bytes.length) :
    writeAt written ((bytes.drop written).take n) (bytes.take written)
      = bytes.take (written + n) := by
  have hlength : (bytes.take written).length = written := List.length_take_of_le (by omega)
  have hdrop : (bytes.take written).drop (written + ((bytes.drop written).take n).length) = [] :=
    List.drop_of_length_le (by rw [hlength]; exact Nat.le_add_right _ _)
  unfold writeAt
  rw [hlength, Nat.sub_self, List.replicate_zero, List.append_nil, hdrop, List.append_nil,
    List.take_of_length_le hlength.le, List.take_add]

/-! ## The invariant -/

/-- An ETag in the cache is that of the body next to it. -/
def Agree (name : String) (served : String → Option Bytes) (s : Caching) : Prop :=
  ∀ body bytes etag served_body, s.content (.body name) = some body →
    s.content (.etag name) = some bytes → from_utf8 bytes = some etag →
    served etag = some served_body → body = served_body

/-- The file that the call has opened has what was written to it. -/
def Opened (s : Caching) (call : CachedCall) (file : CacheFile) (bytes : Bytes) : Prop :=
  ∀ inode written, call.opened = some (inode, written) → written ≤ bytes.length
    ∧ s.names file = some inode ∧ s.inodes[inode]? = some (bytes.take written)

/-- How far a call is with storing. -/
def Stores (name : String) (s : Caching) (call : CachedCall) : Prop :=
  match call.op with
  | some (.write (.body _) bytes) => s.Opened call (.body name) bytes
  | some (.write (.etag _) bytes) =>
      s.content (.body name) = call.sent ∧ s.Opened call (.etag name) bytes
  | _ => True

structure Coherent (url name : String) (served : String → Option Bytes) (s : Caching) : Prop where
  calls : ∀ call ∈ s.calls, CachedAt url name served call
  closed : ∀ call ∈ s.calls, call.op.any CacheOp.isWrite = false → call.opened = none
  alone : ∀ (id id' : Nat) (call call' : CachedCall), s.calls[id]? = some call →
    s.calls[id']? = some call' → call.storing = true → call'.storing = true → id = id'
  apart : ∀ call ∈ s.calls, call.storing = true → s.Unread
  between : ∀ call ∈ s.calls, call.between = true → s.content (.body name) = call.cached_body
  stores : ∀ call ∈ s.calls, call.storing = true → s.Stores name call
  named : s.Named
  agree : s.Quiet → s.Agree name served
  log : ∀ entry ∈ s.log, served entry.1 = some entry.2

theorem agree_of_no_etag (hnone : s.content (.etag name) = none) : s.Agree name served := by
  intro _ _ _ _ _ hetag
  rw [hnone] at hetag
  cases hetag

theorem calls_set {P : CachedCall → Prop} (h : ∀ call ∈ s.calls, P call) {id : Nat}
    (hcall : P call) : ∀ call' ∈ (s.set id call).calls, P call' := by
  intro call' hmem
  rcases List.mem_or_eq_of_mem_set hmem with hold | rfl
  · exact h call' hold
  · exact hcall

/-- A call is the one that makes the step, or was there. -/
theorem get_set {id id' : Nat} {call' : CachedCall} {c : CachedCall}
    (h : (s.set id call').calls[id']? = some c) :
    (id' = id ∧ c = call') ∨ (id' ≠ id ∧ s.calls[id']? = some c) := by
  by_cases heq : id' = id
  · subst heq
    have hlt := (List.getElem?_eq_some_iff.mp h).1
    have hset : (s.set id' call').calls[id']? = some call' := List.getElem?_set_self (by
      simpa [set] using hlt)
    exact Or.inl ⟨rfl, Option.some.inj (h.symm.trans hset)⟩
  · have hset : (s.set id call').calls[id']? = s.calls[id']? :=
      List.getElem?_set_ne (Ne.symm heq)
    exact Or.inr ⟨heq, hset ▸ h⟩

end Invariant

/-! ## Steps -/

section Steps

variable {url name : String} {served : String → Option Bytes} {s s' s₁ : Caching}
  {call call' : CachedCall} {i : Nat} {event : CallEvent}

/-- What a step of a call has to keep. `s₁` is the state after it, but for the
call. -/
structure Keeps (url name : String) (served : String → Option Bytes) (s : Caching)
    (call : CachedCall) (s₁ : Caching) (call' : CachedCall) : Prop where
  calls : s₁.calls = s.calls
  log : ∀ entry ∈ s₁.log, served entry.1 = some entry.2
  named : s₁.Named
  at' : CachedAt url name served call'
  closed : call'.op.any CacheOp.isWrite = false → call'.opened = none
  /-- files are changed by who is storing -/
  files : call.storing = true ∨ (s₁.names = s.names ∧ s₁.inodes = s.inodes)
  starts : call'.storing = true → call.storing = true ∨ (s.Quiet ∧ s.Unread)
  stores : call'.storing = true → s₁.Stores name call'
  reads : call'.between = true → s.Quiet ∧ s₁.content (.body name) = call'.cached_body
  ends : call.storing = true → call'.storing = false → s₁.Agree name served

theorem Agree.congr {s' : Caching} (hnames : s'.names = s.names) (hinodes : s'.inodes = s.inodes)
    (h : s.Agree name served) : s'.Agree name served := by
  unfold Agree at h ⊢
  rw [content_congr hnames hinodes, content_congr hnames hinodes]
  exact h

theorem Stores.congr {s' : Caching} (hnames : s'.names = s.names) (hinodes : s'.inodes = s.inodes)
    (h : s.Stores name call) : s'.Stores name call := by
  unfold Stores Opened at h ⊢
  rw [content_congr hnames hinodes, hnames, hinodes]
  exact h

theorem Coherent.update (hc : s.Coherent url name served) (hget : s.calls[i]? = some call)
    (hk : Keeps url name served s call s₁ call') : (s₁.set i call').Coherent url name served := by
  have hmem : call ∈ s.calls := List.mem_of_getElem? hget
  have hold : ∀ {id' c}, (s₁.set i call').calls[id']? = some c →
      (id' = i ∧ c = call') ∨ (id' ≠ i ∧ s.calls[id']? = some c) := by
    intro id' c h
    exact hk.calls ▸ get_set h
  -- while the call is storing, no other is
  have hothers : call.storing = true → ∀ {id' c}, id' ≠ i → s.calls[id']? = some c →
      c.storing = false := by
    intro hstoring id' c hne hc'
    by_contra hnot
    exact hne (hc.alone _ _ _ _ hc' hget (by simpa using hnot) hstoring)
  have hstarts : call'.storing = true → ∀ {id' c}, id' ≠ i → s.calls[id']? = some c →
      c.storing = false ∧ c.between = false := by
    intro hstoring id' c hne hc'
    rcases hk.starts hstoring with hbefore | ⟨hquiet, hunread⟩
    · exact ⟨hothers hbefore hne hc', hc.apart call hmem hbefore c (List.mem_of_getElem? hc')⟩
    · exact ⟨hquiet c (List.mem_of_getElem? hc'), hunread c (List.mem_of_getElem? hc')⟩
  have hnotBetween : call'.storing = true → call'.between = false := by
    unfold CachedCall.storing CachedCall.between
    cases call'.op with
    | none => exact fun _ => rfl
    | some op => cases op <;> simp [CacheOp.stores, CacheOp.readsEtag]
  have hindex : ∀ {c}, c ∈ (s₁.set i call').calls →
      c = call' ∨ ∃ id', id' ≠ i ∧ s.calls[id']? = some c := by
    intro c h
    obtain ⟨id', h⟩ := List.mem_iff_getElem?.mp h
    rcases hold h with ⟨-, heq⟩ | ⟨hne, hc'⟩
    · exact Or.inl heq
    · exact Or.inr ⟨id', hne, hc'⟩
  exact {
    calls := calls_set (fun c hc' => hc.calls c (hk.calls ▸ hc')) hk.at'
    closed := calls_set (fun c hc' => hc.closed c (hk.calls ▸ hc')) hk.closed
    alone := fun id₁ id₂ c₁ c₂ h₁ h₂ hs₁ hs₂ => by
      rcases hold h₁ with ⟨hid₁, heq₁⟩ | ⟨hne₁, hc₁⟩ <;>
        rcases hold h₂ with ⟨hid₂, heq₂⟩ | ⟨hne₂, hc₂⟩
      · rw [hid₁, hid₂]
      · cases hs₂.symm.trans (hstarts (heq₁ ▸ hs₁) hne₂ hc₂).1
      · cases hs₁.symm.trans (hstarts (heq₂ ▸ hs₂) hne₁ hc₁).1
      · exact hc.alone _ _ _ _ hc₁ hc₂ hs₁ hs₂
    apart := fun c hmem' hstoring c' hmem'' => by
      rcases hindex hmem' with rfl | ⟨id', hne, hc'⟩
      · rcases hindex hmem'' with rfl | ⟨id'', hne', hc''⟩
        · exact hnotBetween hstoring
        · exact (hstarts hstoring hne' hc'').2
      · rcases hindex hmem'' with rfl | ⟨id'', hne', hc''⟩
        · by_contra hbetween
          have hquiet := (hk.reads (by simpa using hbetween)).1
          cases hstoring.symm.trans (hquiet c (List.mem_of_getElem? hc'))
        · exact hc.apart c (List.mem_of_getElem? hc') hstoring c' (List.mem_of_getElem? hc'')
    between := fun c hmem' hbetween => by
      rcases hindex hmem' with rfl | ⟨id', hne, hc'⟩
      · exact (hk.reads hbetween).2
      · rcases hk.files with hstoring | ⟨hnames, hinodes⟩
        · cases hbetween.symm.trans
            (hc.apart call hmem hstoring c (List.mem_of_getElem? hc'))
        · show content s₁ _ = _
          rw [content_congr hnames hinodes]
          exact hc.between c (List.mem_of_getElem? hc') hbetween
    stores := fun c hmem' hstoring => by
      rcases hindex hmem' with rfl | ⟨id', hne, hc'⟩
      · exact hk.stores hstoring
      · rcases hk.files with hbefore | ⟨hnames, hinodes⟩
        · cases hstoring.symm.trans (hothers hbefore hne hc')
        · exact Stores.congr hnames hinodes (hc.stores c (List.mem_of_getElem? hc') hstoring)
    named := ⟨hk.named.inode, hk.named.apart⟩
    agree := fun hquiet => by
      have hcall' : call'.storing = false := hquiet call' (by
        obtain ⟨hlt, -⟩ := List.getElem?_eq_some_iff.mp hget
        exact List.mem_set (hk.calls ▸ hlt) _)
      cases hstoring : call.storing with
      | true => exact hk.ends hstoring hcall'
      | false =>
          obtain ⟨hnames, hinodes⟩ := hk.files.resolve_left (by simp [hstoring])
          refine Agree.congr hnames hinodes (hc.agree fun c hmem' => ?_)
          obtain ⟨id', hc'⟩ := List.mem_iff_getElem?.mp hmem'
          by_cases hne : id' = i
          · subst hne
            rwa [Option.some.inj (hc'.symm.trans hget)]
          · refine hquiet c (List.mem_of_getElem? (i := id') ?_)
            exact (List.getElem?_set_ne (Ne.symm hne)).trans (hk.calls ▸ hc')
    log := hk.log }

theorem storing_of_op {op : CacheOp} {next : op.Answer → Fetching HttpError Bytes}
    (hprog : call.prog = .op op next) : call.storing = op.stores := by
  unfold CachedCall.storing CachedCall.op
  rw [hprog]
  rfl

theorem between_of_op {op : CacheOp} {next : op.Answer → Fetching HttpError Bytes}
    (hprog : call.prog = .op op next) :
    call.between = (op.readsEtag && call.cached_body.isSome) := by
  unfold CachedCall.between CachedCall.op
  rw [hprog]
  rfl

theorem writing_of_op {file : CacheFile} {bytes : Bytes} {next : Unit → Fetching HttpError Bytes}
    {P : Prop} (hprog : call.prog = .op (.write file bytes) next)
    (h : call.op.any CacheOp.isWrite = false) : P := by
  unfold CachedCall.op at h
  rw [hprog] at h
  cases h

/-- Only a call that writes has a file open. -/
theorem Coherent.opened (hc : s.Coherent url name served) (hget : s.calls[i]? = some call)
    {op : CacheOp} {next : op.Answer → Fetching HttpError Bytes} (hprog : call.prog = .op op next)
    (hop : op.isWrite = false) : call.opened = none := by
  refine hc.closed call (List.mem_of_getElem? hget) ?_
  unfold CachedCall.op
  rw [hprog]
  exact hop

theorem not_storing_done {result : Except (Fault HttpError) Bytes} (hprog : call.prog = .done result) :
    call.storing = false ∧ call.between = false := by
  unfold CachedCall.storing CachedCall.between CachedCall.op
  rw [hprog]
  exact ⟨rfl, rfl⟩

theorem Keeps.ofStoring (hc : s.Coherent url name served) (hcalls : s₁.calls = s.calls)
    (hlog : s₁.log = s.log) (hnamed : s₁.Named) (hat : CachedAt url name served call')
    (hclosed : call'.op.any CacheOp.isWrite = false → call'.opened = none)
    (hbefore : call.storing = true) (hstoring : call'.storing = true)
    (hbetween : call'.between = false) (hstores : s₁.Stores name call') :
    Keeps url name served s call s₁ call' where
  calls := hcalls
  log := hlog ▸ hc.log
  named := hnamed
  at' := hat
  closed := hclosed
  files := Or.inl hbefore
  starts _ := Or.inl hbefore
  stores _ := hstores
  reads h := by cases hbetween.symm.trans h
  ends _ h := by cases hstoring.symm.trans h

theorem Keeps.ofEnded (hc : s.Coherent url name served) (hcalls : s₁.calls = s.calls)
    (hlog : s₁.log = s.log) (hnamed : s₁.Named) {result : Except (Fault HttpError) Bytes}
    (hprog : call'.prog = .done result) (hopened : call'.opened = none)
    (hbefore : call.storing = true) (hagree : s₁.Agree name served) :
    Keeps url name served s call s₁ call' where
  calls := hcalls
  log := hlog ▸ hc.log
  named := hnamed
  at' := .returned result hprog
  closed _ := hopened
  files := Or.inl hbefore
  starts h := by cases (not_storing_done hprog).1.symm.trans h
  stores h := by cases (not_storing_done hprog).1.symm.trans h
  reads h := by cases (not_storing_done hprog).2.symm.trans h
  ends _ _ := hagree

/-- A call that is not storing, before and after. -/
theorem Keeps.ofReading (hc : s.Coherent url name served) {log : List (String × Bytes)}
    (hlog : ∀ entry ∈ log, served entry.1 = some entry.2)
    (hat : CachedAt url name served call') (hopened : call'.opened = none)
    (hbefore : call.storing = false) (hafter : call'.storing = false)
    (hreads : call'.between = true → s.Quiet ∧ s.content (.body name) = call'.cached_body) :
    Keeps url name served s call { s with log := log } call' where
  calls := rfl
  log := hlog
  named := ⟨hc.named.inode, hc.named.apart⟩
  at' := hat
  closed _ := hopened
  files := Or.inr ⟨rfl, rfl⟩
  starts h := by cases hafter.symm.trans h
  stores h := by cases hafter.symm.trans h
  reads := hreads
  ends h := by cases hbefore.symm.trans h

theorem coherent_read {ok : Bool} (hc : s.Coherent url name served)
    (hget : s.calls[i]? = some call) (horderly : s.orderlyCall name call (.read ok) = true)
    (hs : s.act name served i call (.read ok) = some s') : s'.Coherent url name served := by
  have hmem := List.mem_of_getElem? hget
  unfold act at hs
  cases hc.calls call hmem with
  | reading hprog =>
      rw [hprog] at hs
      simp only [if_true, Option.some.injEq] at hs
      subst hs
      have hopened := hc.opened hget hprog rfl
      refine hc.update hget (.ofReading hc hc.log (.readingEtag rfl) hopened
        (storing_of_op hprog) rfl fun hbetween => ?_)
      simp only [orderlyCall, CachedCall.op, hprog, decide_eq_true_eq] at horderly
      refine ⟨horderly, ?_⟩
      cases ok with
      | true => rfl
      | false => cases hbetween
  | readingEtag hprog =>
      rw [hprog] at hs
      simp only [reduceCtorEq, if_false, Option.some.injEq] at hs
      subst hs
      have hopened := hc.opened hget hprog rfl
      refine hc.update hget (.ofReading hc hc.log (.getting _ rfl ?_) hopened
        (storing_of_op hprog) rfl fun hbetween => by cases hbetween)
      -- the ETag that is sent was read next to the body
      intro etag hvalidator
      unfold http.validator at hvalidator
      split at hvalidator
      · rename_i hsome
        obtain ⟨body, hbody⟩ := Option.isSome_iff_exists.mp hsome
        obtain ⟨bytes, hbytes, hutf8⟩ := Option.bind_eq_some_iff.mp hvalidator
        have hbetween : call.between = true := (between_of_op hprog).trans hsome
        have hquiet : s.Quiet := by
          intro other hother
          by_contra hstoring
          cases hbetween.symm.trans (hc.apart other hother (by simpa using hstoring) call hmem)
        cases ok with
        | false => cases hbytes
        | true =>
            refine ⟨body, hbody, fun b hb => hc.agree hquiet _ _ _ _ ?_ hbytes hutf8 hb⟩
            exact (hc.between call hmem hbetween).trans hbody
      · cases hvalidator
  | getting _ hprog | making _ _ hprog | writing _ _ hprog | returned _ hprog =>
      rw [hprog] at hs
      cases hs
  | ending bytes etag hprog =>
      rw [hprog] at hs
      cases etag <;> cases hs

theorem mem_returned {if_none_match : Option String} {result : Except HttpError FetchResult}
    {prog : Fetching HttpError Bytes} {entry : String × Bytes}
    (h : entry ∈ returned if_none_match result prog) :
    ∃ etag bytes, if_none_match = some etag ∧ result = .ok .notModified
      ∧ prog = .done (.ok bytes) ∧ entry = (etag, bytes) := by
  unfold returned at h
  split at h
  · exact ⟨_, _, rfl, rfl, rfl, List.mem_singleton.mp h⟩
  · cases h

theorem coherent_answer {result : Except HttpError FetchResult} (hc : s.Coherent url name served)
    (hget : s.calls[i]? = some call)
    (hs : s.act name served i call (.answer result) = some s') : s'.Coherent url name served := by
  have hat := hc.calls call (List.mem_of_getElem? hget)
  unfold act at hs
  cases hat with
  | getting if_none_match hprog hagree =>
      rw [hprog] at hs
      simp only [Option.ite_none_right_eq_some, Option.some.injEq] at hs
      obtain ⟨hhonest, rfl⟩ := hs
      have hopened := hc.opened hget hprog rfl
      have hlog : ∀ entry ∈ s.log ++ returned if_none_match result
          (http.answered id name call.cached_body result),
          served entry.1 = some entry.2 := by
        intro entry hentry
        rcases List.mem_append.mp hentry with hold | hnew
        · exact hc.log entry hold
        · obtain ⟨etag, bytes, rfl, rfl, hdone, rfl⟩ := mem_returned hnew
          rcases answered_cases name call.cached_body (.ok .notModified) with
            ⟨_, _, heq, -⟩ | ⟨answer, hnext, hbody⟩
          · cases heq
          · cases hnext.symm.trans hdone
            obtain ⟨body, hcached, hagree⟩ := hagree etag rfl
            obtain ⟨served_body, hserved⟩ := Option.isSome_iff_exists.mp hhonest
            cases hcached.symm.trans (hbody rfl bytes rfl)
            rw [hserved, hagree served_body hserved]
      rcases answered_cases name call.cached_body result with
        ⟨bytes, etag, rfl, hnext⟩ | ⟨answer, hnext, -⟩
      · have hserved : ∀ e, etag = some e → served e = some bytes := by
          rintro e rfl
          cases if_none_match <;> exact hhonest
        rw [hnext] at hlog ⊢
        show (Caching.set { s with log := s.log ++ _ } i { call with prog := _, sent := _ }).Coherent
          url name served
        exact hc.update hget (.ofReading hc hlog (.making bytes etag rfl rfl hserved) hopened
          (storing_of_op hprog) rfl fun h => by cases h)
      · rw [hnext] at hlog ⊢
        show (Caching.set { s with log := s.log ++ _ } i { call with prog := _, sent := _ }).Coherent
          url name served
        exact hc.update hget (.ofReading hc hlog (.returned answer rfl) hopened
          (storing_of_op hprog) rfl fun h => by cases h)
  | reading hprog | readingEtag hprog | making _ _ hprog | writing _ _ hprog | returned _ hprog =>
      rw [hprog] at hs
      cases hs
  | ending bytes etag hprog =>
      rw [hprog] at hs
      cases etag <;> cases hs

/-- The first write of a call comes when it is alone. -/
theorem coherent_made (hc : s.Coherent url name served) (hget : s.calls[i]? = some call)
    (halone : s.Quiet ∧ s.Unread) {bytes : Bytes} {etag : Option String}
    (hprog : call.prog = .op .create_dir_all fun _ =>
      .op (.write (.body name) bytes) fun _ => lastWrite name bytes etag)
    (hsent : call.sent = some bytes) (hserved : ∀ e, etag = some e → served e = some bytes) :
    (s.set i { call with
      prog := .op (.write (.body name) bytes) fun _ => lastWrite name bytes etag }).Coherent
      url name served := by
  have hopened := hc.opened hget hprog rfl
  exact hc.update hget {
    calls := rfl
    log := hc.log
    named := hc.named
    at' := .writing bytes etag rfl hsent hserved
    closed := fun h => by cases h
    files := Or.inr ⟨rfl, rfl⟩
    starts := fun _ => Or.inr halone
    stores := fun _ inode written h => by cases hopened.symm.trans h
    reads := fun h => by cases h
    ends := fun h => by cases (storing_of_op hprog).symm.trans h }

/-- A call that is storing opens its file, or writes a piece of it. -/
theorem Stores.write {file : CacheFile} {bytes : Bytes} {next : Unit → Fetching HttpError Bytes}
    (hprog : call.prog = .op (.write file bytes) next)
    (hstores : s.Stores name call)
    (hother : ∀ file', file' ≠ file → s₁.content file' = s.content file')
    (hopened : s₁.Opened call' file bytes) (hprog' : call'.prog = call.prog)
    (hsent : call'.sent = call.sent) (hfile : file = .body name ∨ file = .etag name) :
    s₁.Stores name call' := by
  unfold Stores CachedCall.op at hstores ⊢
  rw [hprog', hsent]
  rw [hprog] at hstores ⊢
  rcases hfile with rfl | rfl
  · exact hopened
  · exact ⟨(hother _ (by simp)).trans hstores.1, hopened⟩

/-- The two files that a call writes. -/
theorem CachedAt.file (hat : CachedAt url name served call) {file : CacheFile} {bytes : Bytes}
    {next : Unit → Fetching HttpError Bytes} (hprog : call.prog = .op (.write file bytes) next) :
    file = .body name ∨ file = .etag name := by
  cases hat with
  | writing _ _ h =>
      cases h.symm.trans hprog
      exact Or.inl rfl
  | ending _ etag h =>
      cases etag with
      | none => cases h.symm.trans hprog
      | some etag =>
          cases h.symm.trans hprog
          exact Or.inr rfl
  | reading h | readingEtag h | getting _ h | making _ _ h | returned _ h => cases h.symm.trans hprog

theorem CachedAt.of_prog (hat : CachedAt url name served call) (hprog : call'.prog = call.prog)
    (hbody : call'.cached_body = call.cached_body) (hsent : call'.sent = call.sent) :
    CachedAt url name served call' := by
  cases hat with
  | reading h => exact .reading (hprog.trans h)
  | readingEtag h => exact .readingEtag (by rw [hprog, h, hbody])
  | getting if_none_match h hagree =>
      exact .getting if_none_match (by rw [hprog, h, hbody]) (hbody ▸ hagree)
  | making bytes etag h hs hserved => exact .making bytes etag (hprog.trans h) (hsent.trans hs) hserved
  | writing bytes etag h hs hserved =>
      exact .writing bytes etag (hprog.trans h) (hsent.trans hs) hserved
  | ending bytes etag h hs hserved => exact .ending bytes etag (hprog.trans h) (hsent.trans hs) hserved
  | returned result h => exact .returned result (hprog.trans h)

theorem create_calls (file : CacheFile) :
    (s.create file).1.calls = s.calls ∧ (s.create file).1.log = s.log := by
  unfold create
  split <;> exact ⟨rfl, rfl⟩

theorem coherent_open (hc : s.Coherent url name served) (hget : s.calls[i]? = some call)
    (hs : s.act name served i call .open = some s') : s'.Coherent url name served := by
  have hmem := List.mem_of_getElem? hget
  unfold act at hs
  dsimp only at hs
  split at hs
  · rename_i file bytes next hprog hopened
    cases hs
    obtain ⟨hnamed, hname, hempty, hother⟩ := hc.named.create file
    have hstoring := storing_of_op hprog
    refine hc.update hget (.ofStoring hc (create_calls file).1 (create_calls file).2 hnamed
      ((hc.calls call hmem).of_prog rfl rfl rfl) (writing_of_op hprog) hstoring hstoring
      (between_of_op hprog) ?_)
    refine Stores.write hprog (hc.stores call hmem hstoring) hother (fun inode written h => ?_) rfl
      rfl ((hc.calls call hmem).file hprog)
    cases h
    exact ⟨Nat.zero_le _, hname, by rw [hempty, List.take_zero]⟩
  · cases hs

/-- What a call that has its file open has written. -/
theorem Stores.opened {file : CacheFile} {bytes : Bytes} {next : Unit → Fetching HttpError Bytes}
    (hprog : call.prog = .op (.write file bytes) next) (hstores : s.Stores name call)
    (hfile : file = .body name ∨ file = .etag name) : s.Opened call file bytes := by
  unfold Stores CachedCall.op at hstores
  rw [hprog] at hstores
  rcases hfile with rfl | rfl
  · exact hstores
  · exact hstores.2

theorem coherent_piece {n : Nat} (hc : s.Coherent url name served)
    (hget : s.calls[i]? = some call)
    (hs : s.act name served i call (.piece n) = some s') : s'.Coherent url name served := by
  have hmem := List.mem_of_getElem? hget
  unfold act at hs
  dsimp only at hs
  split at hs
  · rename_i file bytes next inode written hprog hopened
    split at hs
    · rename_i hn
      cases hs
      have hstoring := storing_of_op hprog
      have hfile := (hc.calls call hmem).file hprog
      have hstores := hc.stores call hmem hstoring
      obtain ⟨-, hname, hbytes⟩ := hstores.opened hprog hfile inode written hopened
      obtain ⟨hnamed, hother⟩ := hc.named.piece (writeAt written ((bytes.drop written).take n)) hname
      refine hc.update hget (.ofStoring hc rfl rfl hnamed ((hc.calls call hmem).of_prog rfl rfl rfl)
        (writing_of_op hprog) hstoring hstoring (between_of_op hprog) ?_)
      refine Stores.write hprog hstores hother (fun inode' written' h => ?_) rfl rfl hfile
      cases h
      refine ⟨hn.2, hname, ?_⟩
      rw [List.getElem?_modify_eq, hbytes]
      exact congrArg some (writeAt_take hn.2)
    · cases hs
  · cases hs

/-- The file is written. -/
theorem Opened.content {file : CacheFile} {bytes : Bytes} {inode : Nat}
    (h : s.Opened call file bytes) (hopened : call.opened = some (inode, bytes.length)) :
    s.content file = some bytes := by
  obtain ⟨-, hname, hbytes⟩ := h inode bytes.length hopened
  exact content_eq_some hname (by rw [hbytes, List.take_length])

/-- The ETag that is written stands next to the body that it was sent with. -/
theorem agree_of_written {bytes : Bytes} {etag : String} (hserved : served etag = some bytes)
    (hbody : s.content (.body name) = some bytes)
    (hetag : s.content (.etag name) = some (utf8 etag)) : s.Agree name served := by
  intro body file_etag e served_body hbody' hetag' hutf8 hserved'
  cases hetag.symm.trans hetag'
  rw [from_utf8_utf8] at hutf8
  cases hutf8
  cases hbody.symm.trans hbody'
  exact Option.some.inj (hserved.symm.trans hserved')

theorem coherent_done (hc : s.Coherent url name served) (hget : s.calls[i]? = some call)
    (horderly : s.orderlyCall name call .done = true)
    (hs : s.act name served i call .done = some s') : s'.Coherent url name served := by
  have hmem := List.mem_of_getElem? hget
  unfold act at hs
  cases hc.calls call hmem with
  | making bytes etag hprog hsent hserved =>
      rw [hprog] at hs
      cases hs
      refine coherent_made hc hget ?_ hprog hsent hserved
      simpa [orderlyCall, CachedCall.op, hprog] using horderly
  | writing bytes etag hprog hsent hserved =>
      rw [hprog] at hs
      cases hopened : call.opened with
      | none =>
          rw [hopened] at hs
          cases hs
      | some pair =>
          obtain ⟨inode, written⟩ := pair
          rw [hopened] at hs
          dsimp only at hs
          split at hs
          · rename_i hlength
            cases hs
            have hstoring := storing_of_op hprog
            have hwritten := (hc.stores call hmem hstoring).opened hprog (Or.inl rfl)
            have hbody := hwritten.content (hlength ▸ hopened)
            refine hc.update hget (.ofStoring hc rfl rfl hc.named
              (.ending bytes etag rfl hsent hserved) (fun _ => rfl) hstoring
              (storing_lastWrite rfl) ?_ ?_)
            · cases etag <;> rfl
            · cases etag with
              | none => trivial
              | some etag => exact ⟨hbody.trans hsent.symm, fun _ _ h => by cases h⟩
          · cases hs
  | ending bytes etag hprog hsent hserved =>
      have hstoring := storing_lastWrite hprog
      cases etag with
      | none =>
          have hs := hs
          rw [hprog] at hs
          cases hs
          obtain ⟨hnamed, hnone⟩ := hc.named.remove (.etag name)
          have hopened := hc.opened hget hprog rfl
          exact hc.update hget (.ofEnded hc rfl rfl hnamed rfl hopened hstoring
            (agree_of_no_etag hnone))
      | some etag =>
          obtain ⟨hsame, hwritten⟩ : s.content (.body name) = call.sent
              ∧ s.Opened call (.etag name) (utf8 etag) := by
            have hstores := hc.stores call hmem hstoring
            unfold Stores CachedCall.op at hstores
            rw [hprog] at hstores
            exact hstores
          rw [hprog] at hs
          cases hopened : call.opened with
          | none =>
              rw [hopened] at hs
              cases hs
          | some pair =>
              obtain ⟨inode, written⟩ := pair
              rw [hopened] at hs
              dsimp only [lastWrite] at hs
              split at hs
              · rename_i hlength
                cases hs
                exact hc.update hget (.ofEnded hc rfl rfl hc.named rfl rfl hstoring
                  (agree_of_written (hserved etag rfl) (hsame.trans hsent)
                    (hwritten.content (hlength ▸ hopened))))
              · cases hs
  | reading hprog | readingEtag hprog | getting _ hprog | returned _ hprog =>
      rw [hprog] at hs
      cases hs

theorem coherent_fail (hc : s.Coherent url name served) (hget : s.calls[i]? = some call)
    (horderly : s.orderlyCall name call .fail = true)
    (hs : s.act name served i call .fail = some s') : s'.Coherent url name served := by
  have hmem := List.mem_of_getElem? hget
  unfold act at hs
  cases hc.calls call hmem with
  | making bytes etag hprog hsent hserved =>
      rw [hprog] at hs
      cases hs
      refine coherent_made hc hget ?_ hprog hsent hserved
      simpa [orderlyCall, CachedCall.op, hprog] using horderly
  | writing bytes etag hprog hsent hserved =>
      -- no ETag is to follow
      obtain rfl : etag = none := by
        cases etag with
        | none => rfl
        | some etag =>
            simp [orderlyCall, CachedCall.op, CachedCall.tagged, hprog, lastWrite] at horderly
      rw [hprog] at hs
      cases hs
      exact hc.update hget (.ofStoring hc rfl rfl hc.named
        (.ending bytes none rfl hsent hserved) (fun _ => rfl) (storing_of_op hprog) rfl rfl trivial)
  | ending bytes etag hprog hsent hserved =>
      have hnone : s.content (.etag name) = none := by
        cases etag <;> simpa [orderlyCall, CachedCall.op, hprog, lastWrite] using horderly
      rw [hprog] at hs
      cases etag <;> cases hs <;>
        exact hc.update hget (.ofEnded hc rfl rfl hc.named rfl rfl
          (storing_lastWrite hprog) (agree_of_no_etag hnone))
  | reading hprog | readingEtag hprog | getting _ hprog | returned _ hprog =>
      rw [hprog] at hs
      cases hs

theorem coherent_call (hc : s.Coherent url name served) :
    ({ s with calls := s.calls ++ [⟨http.cached_get id url name, none, none, none⟩] } :
      Caching).Coherent url name served := by
  have hmem : ∀ {c}, c ∈ s.calls ++ [⟨http.cached_get id url name, none, none, none⟩] →
      c ∈ s.calls ∨ (c.storing = false ∧ c.between = false ∧ c.opened = none
        ∧ CachedAt url name served c) := by
    intro c h
    rcases List.mem_append.mp h with hold | hnew
    · exact Or.inl hold
    · rw [List.mem_singleton.mp hnew]
      exact Or.inr ⟨rfl, rfl, rfl, .reading rfl⟩
  have hget : ∀ {id' : Nat} {c : CachedCall}, (s.calls ++ [⟨http.cached_get id url name, none, none,
      none⟩])[id']? = some c → c.storing = true → s.calls[id']? = some c := by
    intro id' c h hstoring
    rcases getElem?_concat_cases h with hold | ⟨-, rfl⟩
    · exact hold
    · cases hstoring
  exact {
    calls := fun c h => (hmem h).elim (hc.calls c) fun h => h.2.2.2
    closed := fun c h hop => (hmem h).elim (fun h => hc.closed c h hop) fun h => h.2.2.1
    alone := fun id₁ id₂ c₁ c₂ h₁ h₂ hs₁ hs₂ =>
      hc.alone id₁ id₂ c₁ c₂ (hget h₁ hs₁) (hget h₂ hs₂) hs₁ hs₂
    apart := fun c h hstoring c' h' => by
      rcases hmem h with hold | ⟨hnot, -⟩
      · exact (hmem h').elim (hc.apart c hold hstoring c') fun h => h.2.1
      · cases hnot.symm.trans hstoring
    between := fun c h hbetween => by
      rcases hmem h with hold | ⟨-, hnot, -⟩
      · exact hc.between c hold hbetween
      · cases hnot.symm.trans hbetween
    stores := fun c h hstoring => by
      rcases hmem h with hold | ⟨hnot, -⟩
      · exact hc.stores c hold hstoring
      · cases hnot.symm.trans hstoring
    named := ⟨hc.named.inode, hc.named.apart⟩
    agree := fun hquiet => hc.agree fun c h => hquiet c (List.mem_append_left _ h)
    log := hc.log }

theorem coherent_kill (hc : s.Coherent url name served)
    (hok : s.content (.etag name) = none ∨ s.Quiet) :
    ({ s with calls := [] } : Caching).Coherent url name served where
  calls c h := by cases h
  closed c h := by cases h
  alone i id' c c' h := by cases h
  apart c h := by cases h
  between c h := by cases h
  stores c h := by cases h
  named := ⟨hc.named.inode, hc.named.apart⟩
  agree _ := hok.elim (agree_of_no_etag (s := s)) hc.agree
  log := hc.log

theorem coherent_init : init.Coherent url name served where
  calls c h := by cases h
  closed c h := by cases h
  alone i id' c c' h := by cases h
  apart c h := by cases h
  between c h := by cases h
  stores c h := by cases h
  named := {
    inode := fun _ _ h => by cases h
    apart := fun _ _ _ h => by cases h }
  agree _ := agree_of_no_etag rfl
  log entry h := by cases h

theorem coherent_step {e : CachingEvent} (hc : s.Coherent url name served) (hok : s.Orderly name e)
    (hs : s.step url name served e = some s') : s'.Coherent url name served := by
  cases e with
  | call =>
      cases hs
      exact coherent_call hc
  | kill =>
      cases hs
      exact coherent_kill hc hok
  | step i event =>
      obtain ⟨call, hget, hs⟩ := Option.bind_eq_some_iff.mp hs
      have horderly : s.orderlyCall name call event = true := by
        have h : (s.calls[i]?.all fun call => s.orderlyCall name call event) = true := hok
        rw [hget] at h
        exact h
      cases event with
      | read ok => exact coherent_read hc hget horderly hs
      | answer result => exact coherent_answer hc hget hs
      | «open» => exact coherent_open hc hget hs
      | piece n => exact coherent_piece hc hget hs
      | done => exact coherent_done hc hget horderly hs
      | fail => exact coherent_fail hc hget horderly hs

end Steps

/-! ## The theorem -/

/-- The claim: what is returned for `NotModified` is the body that was served
with the ETag. -/
def Revalidates (served : String → Option Bytes) (s : Caching) : Prop :=
  ∀ entry ∈ s.log, served entry.1 = some entry.2

end Caching

/-- **The cache is coherent** in every orderly run: what a call returns for
`NotModified` is the body that was served with its ETag, and while no call is
storing the files agree. -/
theorem cache_coherent (url name : String) (served : String → Option Bytes) (s : Caching)
    (hreach : Machine.Reach (Caching.step url name served) (Caching.Orderly name) .init s) :
    s.Revalidates served ∧ (s.Quiet → s.Agree name served) := by
  have hc : s.Coherent url name served :=
    hreach.invariant Caching.coherent_init fun _ _ _ _ hok hs hc => Caching.coherent_step hc hok hs
  exact ⟨hc.log, hc.agree⟩

/-- The server has one body, of two bytes. -/
def oneBody (etag : String) : Option Bytes := if etag = "e" then some [97, 98] else none

/-- Call 0 gets the body, and writes the files. -/
def firstFetch (bodyWrite : List CachingEvent) : List CachingEvent :=
  [.call, .step 0 (.read true), .step 0 (.read true),
    .step 0 (.answer (.ok (.fetched [97, 98] (some "e")))), .step 0 .done, .step 0 .open]
    ++ bodyWrite ++ [.step 0 .open, .step 0 (.piece 1), .step 0 .done]

/-- Call 1 is told that it was not modified. -/
def secondFetch : List CachingEvent :=
  [.call, .step 1 (.read true), .step 1 (.read true), .step 1 (.answer (.ok .notModified))]

theorem cache_coherent_fetched :
    ∃ s, Machine.Reach (Caching.step "u" "n" oneBody) (Caching.Orderly "n") .init s
      ∧ s.log = [("e", [97, 98])] ∧ s.Revalidates oneBody
      ∧ (s.Quiet → s.Agree "n" oneBody) := by
  obtain ⟨s, hreach, hs⟩ := Machine.exists_reach_of_run (Caching.step "u" "n" oneBody)
    (Caching.Orderly "n") .init
    (firstFetch [.step 0 (.piece 2), .step 0 .done] ++ secondFetch)
    (fun s => decide (s.log = [("e", [97, 98])])) (by decide +kernel)
  exact ⟨s, hreach, of_decide_eq_true hs, cache_coherent "u" "n" oneBody s hreach⟩

/-- The write of the body fails after one byte, and the ETag is written. -/
theorem cache_not_coherent :
    ∃ s, Machine.Reach (Caching.step "u" "n" oneBody) Machine.anyStep .init s
      ∧ s.log = [("e", [97])] ∧ ¬ s.Revalidates oneBody := by
  obtain ⟨s, hreach, hs⟩ := Machine.exists_reach_of_run (Caching.step "u" "n" oneBody)
    Machine.anyStep .init (firstFetch [.step 0 (.piece 1), .step 0 .fail] ++ secondFetch)
    (fun s => decide (s.log = [("e", [97])])) (by decide +kernel)
  have hlog := of_decide_eq_true hs
  refine ⟨s, hreach, hlog, fun h => ?_⟩
  have hentry := h ("e", [97]) (by simp [hlog])
  revert hentry
  decide

end Dragomand
