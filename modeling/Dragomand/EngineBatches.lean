import Dragomand.EngineSentences
import Dragomand.Machine
import Mathlib.Data.List.Sort

/-!
# Batches

A call makes one request for each text. Segments that are not in the cache go
to the pool of their model, into the bucket of their length; the pool fills
batches from the short ones on as long as the words, with padding, are within
`mini-batch-words`. What the beam search finds for a batch goes back to the
requests, and a request with nothing left to wait for builds its response.

`Waits` is the invariant: a history is null exactly while its sentence is in
the batch at hand or in a pool, or was in a batch that threw, and a request
counts its nulls. So when the pools have no batch to give, all that is left in
them is too long for any.

The assertions of the engine are compiled out. A segment is known to the cache
by a hash of its words alone.
-/

namespace Dragomand

/-! ## Requests and the cache -/

/-- `std::hash` of a word is the word. -/
def hash_combine (seed v : Nat) : Nat :=
  seed ^^^ ((v + 0x9e3779b9 + (seed <<< 6) + (seed >>> 2)) % 2 ^ 64)

def hashForCache (model : Nat) (words : Segment) : Nat := words.foldl hash_combine model

/-- The records are a direct map; an empty one has the key 0 and no history. -/
structure TranslationCache (η : Type) where
  size : Nat
  records : Nat → Nat × Option η

namespace TranslationCache

variable {η : Type}

def find (cache : TranslationCache η) (key : Nat) : Option (Option η) :=
  let candidate := cache.records (key % cache.size)
  if candidate.1 = key then some candidate.2 else none

def store (cache : TranslationCache η) (key : Nat) (value : Option η) : TranslationCache η :=
  { cache with records := Function.update cache.records (key % cache.size) (key, value) }

end TranslationCache

def makeOptionalCache {η : Type} (size : Nat) : Option (TranslationCache η) :=
  if size > 0 then some ⟨size, fun _ => (0, none)⟩ else none

/-- `completed` is what `responseBuilder_` was called with. -/
structure Request (η : Type) where
  model : Nat
  segments : List Segment
  counter : Int
  histories : List (Option η)
  completed : List (List (Option η))
deriving DecidableEq, Repr

namespace Request

variable {η : Type}

def new (model : Nat) (segments : List Segment) (cache : Option (TranslationCache η)) :
    Request η :=
  let found := segments.map fun segment =>
    cache.bind fun cache => cache.find (hashForCache model segment)
  let counter : Int := segments.length - (found.filter Option.isSome).length
  let histories := found.map Option.join
  ⟨model, segments, counter, histories, if counter = 0 then [histories] else []⟩

def segmentTokens (r : Request η) (index : Nat) : Nat :=
  (r.segments[index]?.map List.length).getD 0

def cacheHitPrefilled (r : Request η) (index : Nat) : Bool :=
  (r.histories[index]?.bind id).isSome

/-- The response is built with the last history. -/
def processHistory (r : Request η) (index : Nat) (history : η) : Request η :=
  let histories := r.histories.set index (some history)
  let counter := r.counter - 1
  { r with
    counter := counter
    histories := histories
    completed := if counter = 0 then r.completed ++ [histories] else r.completed }

end Request

/-! ## Pools -/

structure RequestSentence where
  request : Nat
  index : Nat
deriving DecidableEq, Repr

/-- The requests are ordered by their addresses. -/
def RequestSentence.precedes (address : Nat → Nat) (a b : RequestSentence) : Bool :=
  if a.request = b.request then a.index ≤ b.index else address a.request ≤ address b.request

/-- The buckets beyond the last one are empty. -/
structure BatchingPool where
  bucket : Nat → List RequestSentence
  maxActiveBucketLength : Nat

namespace BatchingPool

def empty : BatchingPool := ⟨fun _ => [], 0⟩

def insert (address : Nat → Nat) (pool : BatchingPool) (bucket_id : Nat) (p : RequestSentence) :
    BatchingPool where
  bucket := Function.update pool.bucket bucket_id
    ((pool.bucket bucket_id).orderedInsert (fun a b => a.precedes address b = true) p)
  maxActiveBucketLength := max bucket_id pool.maxActiveBucketLength

def enqueueRequest {η : Type} (address : Nat → Nat) (pool : BatchingPool) (id : Nat)
    (r : Request η) : BatchingPool :=
  (List.range r.segments.length).foldl (fun pool i =>
    if r.cacheHitPrefilled i then pool
    else pool.insert address (r.segmentTokens i) ⟨id, i⟩) pool

/-- The batch, what is left of the bucket, and whether the batch is full. -/
def fill (miniBatchWords length : Nat) : List RequestSentence → List RequestSentence →
    List RequestSentence × List RequestSentence × Bool
  | [], batch => (batch, [], false)
  | p :: bucket, batch =>
      if (batch.length + 1) * length ≤ miniBatchWords then
        fill miniBatchWords length bucket (batch ++ [p])
      else (batch, p :: bucket, true)

def fillFrom (miniBatchWords : Nat) : List Nat → BatchingPool → List RequestSentence →
    List RequestSentence × BatchingPool
  | [], pool, batch => (batch, pool)
  | length :: lengths, pool, batch =>
      let filled := fill miniBatchWords length (pool.bucket length) batch
      let pool := { pool with bucket := Function.update pool.bucket length filled.2.1 }
      if filled.2.2 then (filled.1, pool) else fillFrom miniBatchWords lengths pool filled.1

def generateBatch (miniBatchWords : Nat) (pool : BatchingPool) :
    List RequestSentence × BatchingPool :=
  pool.fillFrom miniBatchWords (List.range (pool.maxActiveBucketLength + 1)) []

/-- The sentences, in the order in which they are taken. -/
def pending (pool : BatchingPool) : List RequestSentence :=
  (List.range (pool.maxActiveBucketLength + 1)).flatMap pool.bucket

end BatchingPool

/-! ## The service -/

/-- What the service does not decide: the configurations of the models, where
requests are allocated, where the hash set puts a model, and what is found for
the segments of a batch. An error is an exception's text. -/
structure BatchHost (η : Type) where
  miniBatchWords : Nat → Nat
  address : Nat → Nat
  slot : Nat → List Nat → Nat
  search : Nat → List Segment → Except String (List η)

/-- `queue` is `aggregateQueue_`. -/
structure BlockingService (η : Type) where
  requestId : Nat
  queue : List Nat
  pool : Nat → BatchingPool
  cache : Option (TranslationCache η)
  requests : Nat → Request η

namespace BlockingService

variable {η : Type}

def init (cacheSize : Nat) : BlockingService η :=
  ⟨0, [], fun _ => .empty, makeOptionalCache cacheSize, fun _ => .new 0 [] none⟩

/-- `makeRequest`, and `enqueueRequest` of the request. -/
def enqueue (host : BatchHost η) (model : Nat) (s : BlockingService η) (segments : List Segment) :
    BlockingService η :=
  let r := Request.new model segments s.cache
  { s with
    requestId := s.requestId + 1
    queue :=
      if model ∈ s.queue then s.queue
      else s.queue.insertIdx (min (host.slot model s.queue) s.queue.length) model
    pool := Function.update s.pool model
      ((s.pool model).enqueueRequest host.address s.requestId r)
    requests := Function.update s.requests s.requestId r }

/-- A model without a batch leaves the queue. -/
def generateFrom (host : BatchHost η) : List Nat → BlockingService η →
    Option (Nat × List RequestSentence) × BlockingService η
  | [], s => (none, { s with queue := [] })
  | candidate :: queue, s =>
      let generated := (s.pool candidate).generateBatch (host.miniBatchWords candidate)
      let s := { s with pool := Function.update s.pool candidate generated.2 }
      if generated.1 = [] then generateFrom host queue s
      else (some (candidate, generated.1), { s with queue := candidate :: queue })

def generateBatch (host : BatchHost η) (s : BlockingService η) :
    Option (Nat × List RequestSentence) × BlockingService η :=
  generateFrom host s.queue s

def underlyingSegment (s : BlockingService η) (p : RequestSentence) : Segment :=
  (s.requests p.request).segments[p.index]?.getD []

def processHistory (s : BlockingService η) (p : RequestSentence) (history : η) :
    BlockingService η :=
  let r := s.requests p.request
  { s with
    cache := s.cache.map fun cache =>
      cache.store (hashForCache r.model (s.underlyingSegment p)) (some history)
    requests := Function.update s.requests p.request (r.processHistory p.index history) }

def completeBatch (s : BlockingService η) : List RequestSentence → List η → BlockingService η
  | p :: batch, history :: histories => completeBatch (s.processHistory p history) batch histories
  | _, _ => s

/-- `none` when the loop does not end. -/
def translateBatches (host : BatchHost η) : Nat → BlockingService η →
    Option (Except String Unit × BlockingService η)
  | 0, _ => none
  | fuel + 1, s =>
      match s.generateBatch host with
      | (none, s) => some (.ok (), s)
      | (some (model, batch), s) =>
          match host.search model (batch.map s.underlyingSegment) with
          | .error message => some (.error message, s)
          | .ok histories => translateBatches host fuel (s.completeBatch batch histories)

/-- More turns than there are sentences to take. -/
def turns (s : BlockingService η) : Nat :=
  (s.queue.map fun model => (s.pool model).pending.length).sum + 1

/-- A list for each text, of what its callback was called with: the last of
these is the response, and without any the response is as it was constructed,
empty. -/
def translateMultipleRaw (host : BatchHost η) (s : BlockingService η) (model : Nat)
    (sources : List (List Segment)) :
    Option (Except String (List (List (List (Option η)))) × BlockingService η) :=
  let enqueued := sources.foldl (enqueue host model) s
  (translateBatches host enqueued.turns enqueued).map fun outcome =>
    (outcome.1.map fun _ => (List.range sources.length).map fun i =>
      (outcome.2.requests (s.requestId + i)).completed, outcome.2)

end BlockingService

/-! ## What a pool gives -/

namespace BatchingPool

theorem mem_insert {address : Nat → Nat} {pool : BatchingPool} {n l : Nat}
    {p q : RequestSentence} :
    q ∈ (pool.insert address n p).bucket l ↔ q = p ∧ l = n ∨ q ∈ pool.bucket l := by
  by_cases hl : l = n
  · subst hl
    simp [insert, List.mem_orderedInsert]
  · simp [insert, hl]

theorem nodup_insert {address : Nat → Nat} {pool : BatchingPool} {n : Nat} {p : RequestSentence}
    (hp : p ∉ pool.bucket n) (h : ∀ l, (pool.bucket l).Nodup) (l : Nat) :
    ((pool.insert address n p).bucket l).Nodup := by
  by_cases hl : l = n
  · subst hl
    simp only [insert, Function.update_self]
    rw [(List.perm_orderedInsert _ p _).nodup_iff]
    exact List.nodup_cons.mpr ⟨hp, h l⟩
  · simp only [insert, Function.update_of_ne hl]
    exact h l

/-- The sentences of a request that have no history yet. -/
structure Enqueued {η : Type} (pool : BatchingPool) (id : Nat) (r : Request η) (k : Nat)
    (pool' : BatchingPool) : Prop where
  mem : ∀ q l, q ∈ pool'.bucket l ↔ q ∈ pool.bucket l
    ∨ q.request = id ∧ q.index < k ∧ r.cacheHitPrefilled q.index = false
      ∧ l = r.segmentTokens q.index
  max_le : pool.maxActiveBucketLength ≤ pool'.maxActiveBucketLength
  tokens_le : ∀ i < k, r.cacheHitPrefilled i = false →
    r.segmentTokens i ≤ pool'.maxActiveBucketLength
  nodup : ∀ l, (pool'.bucket l).Nodup

theorem enqueued {η : Type} {address : Nat → Nat} {pool : BatchingPool} {id : Nat}
    (r : Request η) (hnew : ∀ l, ∀ q ∈ pool.bucket l, q.request ≠ id)
    (hnodup : ∀ l, (pool.bucket l).Nodup) :
    Enqueued pool id r r.segments.length (pool.enqueueRequest address id r) := by
  have hloop : ∀ k, Enqueued pool id r k ((List.range k).foldl (fun pool i =>
      if r.cacheHitPrefilled i then pool
      else pool.insert address (r.segmentTokens i) ⟨id, i⟩) pool) := by
    intro k
    induction k with
    | zero => exact ⟨by simp, Nat.le_refl _, by simp, hnodup⟩
    | succ k ih =>
        rw [List.range_succ, List.foldl_concat]
        cases hhit : r.cacheHitPrefilled k with
        | true =>
            rw [if_pos rfl]
            refine ⟨fun q l => ?_, ih.max_le, fun i hi hmiss => ?_, ih.nodup⟩
            · rw [ih.mem]
              refine or_congr_right (and_congr_right fun _ => ?_)
              constructor
              · exact fun h => ⟨Nat.lt_succ_of_lt h.1, h.2⟩
              · rintro ⟨hlt, hmiss, hl⟩
                refine ⟨Nat.lt_of_le_of_ne (Nat.le_of_lt_succ hlt) ?_, hmiss, hl⟩
                rintro rfl
                rw [hhit] at hmiss
                cases hmiss
            · refine ih.tokens_le i (Nat.lt_of_le_of_ne (Nat.le_of_lt_succ hi) ?_) hmiss
              rintro rfl
              rw [hhit] at hmiss
              cases hmiss
        | false =>
            rw [if_neg Bool.false_ne_true]
            refine ⟨fun q l => ?_, ?_, fun i hi hmiss => ?_, fun l => ?_⟩
            · rw [mem_insert, ih.mem]
              constructor
              · rintro (⟨rfl, rfl⟩ | hq | ⟨hid, hlt, h⟩)
                · exact .inr ⟨rfl, Nat.lt_succ_self k, hhit, rfl⟩
                · exact .inl hq
                · exact .inr ⟨hid, Nat.lt_succ_of_lt hlt, h⟩
              · rintro (hq | ⟨hid, hlt, hmiss, hl⟩)
                · exact .inr (.inl hq)
                · rcases Nat.lt_succ_iff_lt_or_eq.mp hlt with hlt | heq
                  · exact .inr (.inr ⟨hid, hlt, hmiss, hl⟩)
                  · left
                    obtain ⟨request, index⟩ := q
                    obtain rfl : request = id := hid
                    obtain rfl : index = k := heq
                    exact ⟨rfl, hl⟩
            · exact Nat.le_trans ih.max_le (Nat.le_max_right _ _)
            · rcases Nat.lt_succ_iff_lt_or_eq.mp hi with hi | rfl
              · exact Nat.le_trans (ih.tokens_le i hi hmiss) (Nat.le_max_right _ _)
              · exact Nat.le_max_left _ _
            · refine nodup_insert ?_ ih.nodup l
              rw [ih.mem]
              rintro (hq | ⟨-, hlt, -⟩)
              · exact hnew _ _ hq rfl
              · exact Nat.lt_irrefl k hlt
  exact hloop r.segments.length

/-- A batch takes the front of a bucket, if the sentences fit at all. -/
theorem fill_spec (miniBatchWords length : Nat) (bucket batch : List RequestSentence) :
    ∃ taken, (fill miniBatchWords length bucket batch).1 = batch ++ taken
      ∧ bucket = taken ++ (fill miniBatchWords length bucket batch).2.1
      ∧ (taken ≠ [] → length ≤ miniBatchWords)
      ∧ ((fill miniBatchWords length bucket batch).2.2 = false →
        (fill miniBatchWords length bucket batch).2.1 = [])
      ∧ ((fill miniBatchWords length bucket batch).2.2 = true →
        miniBatchWords < ((fill miniBatchWords length bucket batch).1.length + 1) * length) := by
  induction bucket generalizing batch with
  | nil => exact ⟨[], by simp [fill]⟩
  | cons p bucket ih =>
      by_cases hfits : (batch.length + 1) * length ≤ miniBatchWords
      · obtain ⟨taken, htaken, hbucket, -, hrest, hfull⟩ := ih (batch ++ [p])
        rw [fill, if_pos hfits]
        refine ⟨p :: taken, ?_, ?_, fun _ => ?_, hrest, hfull⟩
        · rw [htaken, List.append_assoc]
          rfl
        · rw [List.cons_append, ← hbucket]
        · exact Nat.le_trans (Nat.le_mul_of_pos_left _ (Nat.succ_pos _)) hfits
      · rw [fill, if_neg hfits]
        exact ⟨[], (List.append_nil _).symm, rfl, fun h => absurd rfl h, fun h => absurd h (by simp),
          fun _ => Nat.lt_of_not_le hfits⟩

/-- What is taken from the buckets, and what is left in them. -/
structure Generated (miniBatchWords : Nat) (lengths : List Nat) (pool : BatchingPool)
    (batch taken : List RequestSentence) (pool' : BatchingPool) : Prop where
  max_eq : pool'.maxActiveBucketLength = pool.maxActiveBucketLength
  pending : taken ++ lengths.flatMap pool'.bucket = lengths.flatMap pool.bucket
  suffix : ∀ l, pool'.bucket l <:+ pool.bucket l
  others : ∀ l, l ∉ lengths → pool'.bucket l = pool.bucket l
  short : ∀ p ∈ taken, ∃ l, p ∈ pool.bucket l ∧ l ≤ miniBatchWords
  long : batch ++ taken = [] → ∀ l ∈ lengths, pool'.bucket l ≠ [] → miniBatchWords < l

theorem fillFrom_spec (miniBatchWords : Nat) {lengths : List Nat}
    (hlengths : lengths.Pairwise (· < ·)) (pool : BatchingPool) (batch : List RequestSentence) :
    ∃ taken, (fillFrom miniBatchWords lengths pool batch).1 = batch ++ taken
      ∧ Generated miniBatchWords lengths pool batch taken
        (fillFrom miniBatchWords lengths pool batch).2 := by
  induction lengths generalizing pool batch with
  | nil =>
      exact ⟨[], (List.append_nil _).symm, rfl, rfl, fun _ => List.suffix_refl _, fun _ _ => rfl,
        by simp, by simp⟩
  | cons length lengths ih =>
      rw [List.pairwise_cons] at hlengths
      obtain ⟨taken, htaken, hbucket, hshort, hrest, hfull⟩ :=
        fill_spec miniBatchWords length (pool.bucket length) batch
      have hnot : length ∉ lengths := fun hmem => Nat.lt_irrefl _ (hlengths.1 length hmem)
      have hothers : ∀ rest : List RequestSentence,
          lengths.flatMap (Function.update pool.bucket length rest) = lengths.flatMap pool.bucket := by
        intro rest
        refine List.flatMap_congr fun l hl => ?_
        have hne : l ≠ length := by
          rintro rfl
          exact hnot hl
        rw [Function.update_of_ne hne]
      have hsuffix : ∀ l, Function.update pool.bucket length
          (fill miniBatchWords length (pool.bucket length) batch).2.1 l <:+ pool.bucket l := by
        intro l
        by_cases hl : l = length
        · subst hl
          rw [Function.update_self]
          exact ⟨taken, hbucket.symm⟩
        · rw [Function.update_of_ne hl]
      have htakenShort : ∀ p ∈ taken, ∃ l, p ∈ pool.bucket l ∧ l ≤ miniBatchWords := by
        intro p hp
        refine ⟨length, ?_, hshort (List.ne_nil_of_mem hp)⟩
        rw [hbucket]
        exact List.mem_append_left _ hp
      rw [fillFrom]
      cases hreturns : (fill miniBatchWords length (pool.bucket length) batch).2.2 with
      | true =>
          rw [if_pos rfl]
          refine ⟨taken, htaken, rfl, ?_, hsuffix, fun l hl => ?_, htakenShort, ?_⟩
          · rw [List.flatMap_cons, List.flatMap_cons, hothers]
            simp only [Function.update_self]
            rw [← List.append_assoc, ← hbucket]
          · rw [List.mem_cons, not_or] at hl
            exact Function.update_of_ne hl.1 _ _
          · intro hnone l hl _
            have hlt := hfull hreturns
            rw [htaken, hnone, List.length_nil, Nat.zero_add, Nat.one_mul] at hlt
            rcases List.mem_cons.mp hl with rfl | hmem
            · exact hlt
            · exact Nat.lt_trans hlt (hlengths.1 l hmem)
      | false =>
          rw [if_neg Bool.false_ne_true]
          have hempty := hrest hreturns
          rw [hempty] at hbucket hsuffix ⊢
          obtain ⟨taken', htaken', hg⟩ := ih hlengths.2
            { pool with bucket := Function.update pool.bucket length [] }
            (fill miniBatchWords length (pool.bucket length) batch).1
          refine ⟨taken ++ taken', ?_, hg.max_eq, ?_, fun l => (hg.suffix l).trans (hsuffix l),
            fun l hl => ?_, fun p hp => ?_, ?_⟩
          · rw [htaken', htaken, List.append_assoc]
          · have hlast := hg.others length hnot
            have hpending := hg.pending
            dsimp only at hlast hpending
            rw [hothers] at hpending
            rw [List.flatMap_cons, List.flatMap_cons, hlast, Function.update_self, List.nil_append,
              List.append_assoc, hpending, hbucket, List.append_nil]
          · rw [List.mem_cons, not_or] at hl
            rw [hg.others l hl.2]
            exact Function.update_of_ne hl.1 _ _
          · rcases List.mem_append.mp hp with hp | hp
            · exact htakenShort p hp
            · obtain ⟨l, hmem, hl⟩ := hg.short p hp
              exact ⟨l, (hsuffix l).subset hmem, hl⟩
          · intro hnone l hl hleft
            rcases List.mem_cons.mp hl with rfl | hmem
            · refine absurd ?_ hleft
              rw [hg.others l hnot]
              exact Function.update_self _ _ _
            · refine hg.long ?_ l hmem hleft
              rw [htaken, List.append_assoc]
              exact hnone

theorem generateBatch_spec (miniBatchWords : Nat) (pool : BatchingPool) :
    Generated miniBatchWords (List.range (pool.maxActiveBucketLength + 1)) pool []
      (pool.generateBatch miniBatchWords).1 (pool.generateBatch miniBatchWords).2 := by
  obtain ⟨taken, htaken, hg⟩ :=
    fillFrom_spec miniBatchWords (List.pairwise_lt_range (n := pool.maxActiveBucketLength + 1))
      pool []
  rw [generateBatch, htaken]
  exact hg

end BatchingPool

/-! ## Histories -/

section Histories

variable {η : Type} {host : BatchHost η} {asked : Nat → Segment → Prop}

/-- The history is what the search found for the segment, in a batch of
segments that were asked for. -/
def BatchHost.Found (host : BatchHost η) (asked : Nat → Segment → Prop) (model : Nat)
    (segment : Segment) (history : η) : Prop :=
  ∃ (batch : List Segment) (histories : List η) (k : Nat),
    host.search model batch = .ok histories ∧ batch[k]? = some segment
      ∧ histories[k]? = some history
      ∧ ∀ segment ∈ batch, asked model segment ∧ segment.length ≤ host.miniBatchWords model

/-- A request counts the histories that it waits for. -/
structure Request.Counts (host : BatchHost η) (asked : Nat → Segment → Prop) (r : Request η) :
    Prop where
  length : r.histories.length = r.segments.length
  counter : r.counter = r.histories.countP Option.isNone
  completed : r.completed = if r.counter = 0 then [r.histories] else []
  requested : ∀ segment ∈ r.segments, asked r.model segment
  found : ∀ (i : Nat) segment history, r.segments[i]? = some segment →
    r.histories[i]? = some (some history) → host.Found asked r.model segment history

/-- The histories in the cache were found for a segment with their key. -/
structure TranslationCache.Holds (host : BatchHost η) (asked : Nat → Segment → Prop)
    (cache : TranslationCache η) : Prop where
  null : ∀ i, (cache.records i).2 = none → (cache.records i).1 = 0
  found : ∀ i history, (cache.records i).2 = some history → ∃ model segment,
    asked model segment ∧ hashForCache model segment = (cache.records i).1
      ∧ host.Found asked model segment history

/-- No two segments that are asked for have a key in common, nor one that of
an empty record. -/
structure DistinctKeys (asked : Nat → Segment → Prop) : Prop where
  nonzero : ∀ model segment, asked model segment → hashForCache model segment ≠ 0
  injective : ∀ model segment model' segment', asked model segment → asked model' segment' →
    hashForCache model segment = hashForCache model' segment' → model = model' ∧ segment = segment'

theorem TranslationCache.Holds.find {cache : TranslationCache η} (hc : cache.Holds host asked)
    (hkeys : DistinctKeys asked) {model : Nat} {segment : Segment} (hasked : asked model segment)
    {value : Option η} (h : cache.find (hashForCache model segment) = some value) :
    ∃ history, value = some history ∧ host.Found asked model segment history := by
  unfold TranslationCache.find at h
  dsimp only at h
  split at h
  · rename_i hkey
    obtain rfl := Option.some.inj h
    cases hvalue : (cache.records (hashForCache model segment % cache.size)).2 with
    | none => exact absurd (hkey.symm.trans (hc.null _ hvalue)) (hkeys.nonzero _ _ hasked)
    | some history =>
        obtain ⟨model', segment', hasked', hkey', hfound⟩ := hc.found _ _ hvalue
        obtain ⟨rfl, rfl⟩ := hkeys.injective _ _ _ _ hasked hasked' (hkey.symm.trans hkey'.symm)
        exact ⟨history, rfl, hfound⟩
  · cases h

theorem TranslationCache.Holds.store {cache : TranslationCache η} (hc : cache.Holds host asked)
    {model : Nat} {segment : Segment} (hasked : asked model segment) {history : η}
    (hfound : host.Found asked model segment history) :
    (cache.store (hashForCache model segment) (some history)).Holds host asked := by
  constructor
  · intro i hnull
    by_cases hi : i = hashForCache model segment % cache.size
    · subst hi
      simp [TranslationCache.store] at hnull
    · simp only [TranslationCache.store, Function.update_of_ne hi] at hnull ⊢
      exact hc.null i hnull
  · intro i history' hvalue
    by_cases hi : i = hashForCache model segment % cache.size
    · subst hi
      simp only [TranslationCache.store, Function.update_self] at hvalue ⊢
      obtain rfl := Option.some.inj hvalue
      exact ⟨model, segment, hasked, rfl, hfound⟩
    · simp only [TranslationCache.store, Function.update_of_ne hi] at hvalue ⊢
      exact hc.found i history' hvalue

/-- A request finds histories of its own segments. -/
theorem Request.counts_new {model : Nat} {segments : List Segment}
    {cache : Option (TranslationCache η)} (hasked : ∀ segment ∈ segments, asked model segment)
    (hcache : ∀ c, cache = some c → DistinctKeys asked ∧ c.Holds host asked) :
    (Request.new model segments cache).Counts host asked := by
  -- what is found is not null
  have hfound : ∀ segment ∈ segments, ∀ value,
      (cache.bind fun c => c.find (hashForCache model segment)) = some value →
      ∃ history, value = some history ∧ host.Found asked model segment history := by
    intro segment hmem value hvalue
    obtain ⟨c, hc, hvalue⟩ := Option.bind_eq_some_iff.mp hvalue
    exact (hcache c hc).2.find (hcache c hc).1 (hasked segment hmem) hvalue
  constructor
  · simp [Request.new]
  · have hsplit := List.length_eq_countP_add_countP
      (fun segment => (cache.bind fun c => c.find (hashForCache model segment)).isSome)
      (l := segments)
    have hnulls : segments.countP
        ((Option.isNone ∘ Option.join) ∘ fun segment =>
          cache.bind fun c => c.find (hashForCache model segment))
        = segments.countP fun segment =>
          ¬ (cache.bind fun c => c.find (hashForCache model segment)).isSome = true := by
      refine List.countP_congr fun segment hmem => ?_
      cases hvalue : cache.bind fun c => c.find (hashForCache model segment) with
      | none => simp [hvalue]
      | some value =>
          obtain ⟨history, rfl, -⟩ := hfound segment hmem value hvalue
          simp [hvalue]
    simp only [Request.new, List.countP_map, ← List.countP_eq_length_filter]
    rw [hnulls]
    have hcount : segments.countP (Option.isSome ∘ fun segment =>
        cache.bind fun c => c.find (hashForCache model segment))
        = segments.countP fun segment =>
          (cache.bind fun c => c.find (hashForCache model segment)).isSome := rfl
    rw [hcount]
    omega
  · rfl
  · exact hasked
  · intro i segment history hsegment hhistory
    change segments[i]? = some segment at hsegment
    have hvalue : (cache.bind fun c => c.find (hashForCache model segment)) = some (some history) := by
      simp only [Request.new, List.getElem?_map, hsegment, Option.map_some, Option.some.injEq]
        at hhistory
      exact Option.join_eq_some_iff.mp hhistory
    obtain ⟨history', heq, hfound⟩ :=
      hfound segment (List.mem_of_getElem? hsegment) (some history) hvalue
    obtain rfl := Option.some.inj heq
    exact hfound

/-- A request that waits was not called back. -/
theorem Request.Counts.waiting {r : Request η} (hr : r.Counts host asked)
    (hnull : none ∈ r.histories) : r.completed = [] := by
  have hpos : 0 < r.histories.countP Option.isNone := List.countP_pos_iff.mpr ⟨none, hnull, rfl⟩
  rw [hr.completed, if_neg]
  rw [hr.counter]
  omega

/-- A history that was waited for comes in. -/
theorem Request.Counts.processHistory {r : Request η} (hr : r.Counts host asked) {i : Nat}
    {segment : Segment} {history : η} (hnull : r.histories[i]? = some none)
    (hsegment : r.segments[i]? = some segment) (hfound : host.Found asked r.model segment history) :
    (r.processHistory i history).Counts host asked := by
  have hlt := (List.getElem?_eq_some_iff.mp hnull).1
  have hget := (List.getElem?_eq_some_iff.mp hnull).2
  have hpos : 0 < r.histories.countP Option.isNone :=
    List.countP_pos_iff.mpr ⟨none, List.mem_of_getElem? hnull, rfl⟩
  constructor
  · simp [Request.processHistory, hr.length]
  · simp only [Request.processHistory]
    rw [List.countP_set hlt, hget, hr.counter]
    simp
    omega
  · simp only [Request.processHistory]
    rw [hr.waiting (List.mem_of_getElem? hnull)]
    rfl
  · exact hr.requested
  · intro j segment' history' hsegment' hhistory'
    change r.segments[j]? = some segment' at hsegment'
    simp only [Request.processHistory] at hhistory'
    by_cases hj : j = i
    · subst hj
      rw [List.getElem?_set_self hlt] at hhistory'
      obtain rfl := Option.some.inj (Option.some.inj hhistory')
      obtain rfl := Option.some.inj (hsegment.symm.trans hsegment')
      exact hfound
    · rw [List.getElem?_set_ne (Ne.symm hj)] at hhistory'
      exact hr.found j segment' history' hsegment' hhistory'

theorem Request.null_iff {r : Request η} {i : Nat} (hi : i < r.histories.length) :
    r.histories[i]? = some none ↔ r.cacheHitPrefilled i = false := by
  rw [Request.cacheHitPrefilled, List.getElem?_eq_getElem hi]
  cases r.histories[i] <;> simp

end Histories

/-! ## What is waited for -/

namespace BlockingService

variable {η : Type} {host : BatchHost η} {asked : Nat → Segment → Prop}
  {s : BlockingService η} {lost batch : List RequestSentence}

/-- A history is null as long as its sentence is in the batch at hand or in a
pool, and for good if it was in a batch that threw. The models that are not in
the queue are left with sentences that are too long. -/
structure Waits (host : BatchHost η) (asked : Nat → Segment → Prop)
    (lost batch : List RequestSentence) (s : BlockingService η) : Prop where
  pooled : ∀ model l, ∀ p ∈ (s.pool model).bucket l, p.request < s.requestId
    ∧ (s.requests p.request).model = model ∧ l = (s.requests p.request).segmentTokens p.index
    ∧ l ≤ (s.pool model).maxActiveBucketLength
  nodup : ∀ model l, ((s.pool model).bucket l).Nodup
  taken_nodup : batch.Nodup
  taken : ∀ p ∈ batch, p.request < s.requestId ∧ p ∉ lost
    ∧ ∀ model l, p ∉ (s.pool model).bucket l
  thrown : ∀ p ∈ lost, p.request < s.requestId ∧ ∀ model l, p ∉ (s.pool model).bucket l
  waiting : ∀ p : RequestSentence, p.request < s.requestId →
    ((s.requests p.request).histories[p.index]? = some none
      ↔ p ∈ batch ∨ p ∈ lost ∨ ∃ l, p ∈ (s.pool (s.requests p.request).model).bucket l)
  counts : ∀ id < s.requestId, (s.requests id).Counts host asked
  cached : ∀ cache, s.cache = some cache → DistinctKeys asked ∧ cache.Holds host asked
  idle : ∀ model, model ∉ s.queue → ∀ l, ∀ p ∈ (s.pool model).bucket l,
    host.miniBatchWords model < l

theorem Waits.pending_nodup (hs : s.Waits host asked lost batch) (model : Nat) :
    (s.pool model).pending.Nodup := by
  refine List.nodup_flatMap.mpr ⟨fun l _ => hs.nodup model l, ?_⟩
  refine List.Pairwise.imp ?_ List.nodup_range
  intro l l' hne p hp hp'
  exact hne ((hs.pooled _ _ p hp).2.2.1.trans (hs.pooled _ _ p hp').2.2.1.symm)

theorem Waits.mem_pending (hs : s.Waits host asked lost batch) {model l : Nat} {p : RequestSentence}
    (hp : p ∈ (s.pool model).bucket l) : p ∈ (s.pool model).pending :=
  List.mem_flatMap.mpr ⟨l, List.mem_range.mpr (Nat.lt_succ_of_le (hs.pooled _ _ p hp).2.2.2), hp⟩

theorem waits_init (cacheSize : Nat) (hkeys : 0 < cacheSize → DistinctKeys asked) :
    (init cacheSize : BlockingService η).Waits host asked [] [] where
  pooled := by simp [init, BatchingPool.empty]
  nodup := by simp [init, BatchingPool.empty]
  taken_nodup := List.nodup_nil
  taken := by simp
  thrown := by simp
  waiting := fun p hp => absurd hp (Nat.not_lt_zero _)
  counts := fun id hid => absurd hid (Nat.not_lt_zero _)
  cached := by
    intro cache hcache
    simp only [init, makeOptionalCache] at hcache
    split at hcache
    · rename_i hsize
      obtain rfl := Option.some.inj hcache
      exact ⟨hkeys hsize, fun _ _ => rfl, fun _ _ h => by cases h⟩
    · cases hcache
  idle := by simp [init, BatchingPool.empty]

theorem Waits.enqueue (hs : s.Waits host asked lost []) {model : Nat} {segments : List Segment}
    (hasked : ∀ segment ∈ segments, asked model segment) :
    (s.enqueue host model segments).Waits host asked lost [] := by
  have hnew : ∀ l, ∀ q ∈ (s.pool model).bucket l, q.request ≠ s.requestId := fun l q hq =>
    Nat.ne_of_lt (hs.pooled model l q hq).1
  have he : BatchingPool.Enqueued _ s.requestId (Request.new model segments s.cache) _
      ((s.pool model).enqueueRequest host.address s.requestId (Request.new model segments s.cache)) :=
    BatchingPool.enqueued _ hnew (hs.nodup model)
  have hcounts : (Request.new model segments s.cache).Counts host asked :=
    Request.counts_new hasked hs.cached
  have hrequest : ∀ id < s.requestId, (s.enqueue host model segments).requests id = s.requests id :=
    fun id hid => Function.update_of_ne (Nat.ne_of_lt hid) _ _
  have hself : (s.enqueue host model segments).requests s.requestId
      = Request.new model segments s.cache := Function.update_self _ _ _
  have hpool : ∀ m, m ≠ model → (s.enqueue host model segments).pool m = s.pool m :=
    fun m hm => Function.update_of_ne hm _ _
  have hpoolSelf : (s.enqueue host model segments).pool model
      = (s.pool model).enqueueRequest host.address s.requestId
        (Request.new model segments s.cache) := Function.update_self _ _ _
  have hold : ∀ {p : RequestSentence}, p.request < s.requestId → p.request < s.requestId + 1 :=
    fun hp => Nat.lt_succ_of_lt hp
  constructor
  · intro m l p hp
    by_cases hm : m = model
    · subst hm
      rw [hpoolSelf] at hp ⊢
      rcases (he.mem p l).mp hp with hp | ⟨hid, hlt, hmiss, hl⟩
      · obtain ⟨hlt, hmodel, hl, hmax⟩ := hs.pooled _ _ p hp
        rw [hrequest _ hlt]
        exact ⟨hold hlt, hmodel, hl, Nat.le_trans hmax he.max_le⟩
      · rw [hid, hself]
        exact ⟨Nat.lt_succ_self _, rfl, hl, hl ▸ he.tokens_le _ hlt hmiss⟩
    · rw [hpool m hm] at hp ⊢
      obtain ⟨hlt, hmodel, hl, hmax⟩ := hs.pooled _ _ p hp
      rw [hrequest _ hlt]
      exact ⟨hold hlt, hmodel, hl, hmax⟩
  · intro m l
    by_cases hm : m = model
    · subst hm
      rw [hpoolSelf]
      exact he.nodup l
    · rw [hpool m hm]
      exact hs.nodup m l
  · exact List.nodup_nil
  · exact fun p hp => absurd hp List.not_mem_nil
  · intro p hp
    obtain ⟨hlt, hunpooled⟩ := hs.thrown p hp
    refine ⟨hold hlt, fun m l hmem => ?_⟩
    by_cases hm : m = model
    · subst hm
      rw [hpoolSelf] at hmem
      rcases (he.mem p l).mp hmem with hmem | ⟨hid, -⟩
      · exact hunpooled m l hmem
      · exact Nat.ne_of_lt hlt hid
    · rw [hpool m hm] at hmem
      exact hunpooled m l hmem
  · intro p hp
    rcases Nat.lt_succ_iff_lt_or_eq.mp hp with hlt | heq
    · rw [hrequest _ hlt, hs.waiting p hlt]
      refine or_congr_right (or_congr_right (exists_congr fun l => ?_))
      by_cases hm : (s.requests p.request).model = model
      · rw [hm, hpoolSelf, he.mem]
        exact ⟨.inl, fun h => h.resolve_right fun h => Nat.ne_of_lt hlt h.1⟩
      · rw [hpool _ hm]
    · rw [heq, hself]
      show _ ↔ p ∈ [] ∨ p ∈ lost
        ∨ ∃ l, p ∈ ((s.enqueue host model segments).pool model).bucket l
      rw [hpoolSelf]
      constructor
      · intro hnull
        have hlt : p.index < segments.length := by
          have := (List.getElem?_eq_some_iff.mp hnull).1
          rwa [hcounts.length] at this
        exact .inr (.inr ⟨_, (he.mem p _).mpr
          (.inr ⟨heq, hlt, (Request.null_iff (hcounts.length ▸ hlt)).mp hnull, rfl⟩)⟩)
      · rintro (hp | hp | ⟨l, hp⟩)
        · exact absurd hp List.not_mem_nil
        · exact absurd heq (Nat.ne_of_lt (hs.thrown p hp).1)
        · rcases (he.mem p l).mp hp with hp | ⟨-, hlt, hprefilled, -⟩
          · exact absurd heq (hnew l p hp)
          · exact (Request.null_iff (hcounts.length ▸ hlt)).mpr hprefilled
  · intro id hid
    rcases Nat.lt_succ_iff_lt_or_eq.mp hid with hlt | rfl
    · rw [hrequest id hlt]
      exact hs.counts id hlt
    · rw [hself]
      exact hcounts
  · exact hs.cached
  · intro m hm l p hp
    have hqueue : m ≠ model ∧ m ∉ s.queue := by
      simp only [BlockingService.enqueue] at hm
      split at hm
      · rename_i hmem
        refine ⟨?_, hm⟩
        rintro rfl
        exact hm hmem
      · rw [List.mem_insertIdx (Nat.min_le_right _ _), not_or] at hm
        exact hm
    rw [hpool m hqueue.1] at hp
    exact hs.idle m hqueue.2 l p hp

/-- A batch is taken from the pool of a model, which leaves the queue only
when there is none. -/
theorem Waits.generate (hs : s.Waits host asked lost []) {candidate : Nat} {queue : List Nat}
    {taken : List RequestSentence} {pool : BatchingPool}
    (hg : BatchingPool.Generated (host.miniBatchWords candidate)
      (List.range ((s.pool candidate).maxActiveBucketLength + 1)) (s.pool candidate) [] taken pool)
    (hqueue : ∀ m, m ∉ queue → m ≠ candidate → m ∉ s.queue) (hleft : candidate ∉ queue → taken = []) :
    ({ s with pool := Function.update s.pool candidate pool, queue := queue }
      : BlockingService η).Waits host asked lost taken := by
  have hpending := hg.pending
  have hnodup := hs.pending_nodup candidate
  rw [BatchingPool.pending, ← hpending, List.nodup_append] at hnodup
  have hpool : ∀ m, m ≠ candidate → Function.update s.pool candidate pool m = s.pool m :=
    fun m hm => Function.update_of_ne hm _ _
  have hself : Function.update s.pool candidate pool candidate = pool :=
    Function.update_self _ _ _
  have hsubset : ∀ {l : Nat} {p : RequestSentence}, p ∈ pool.bucket l →
      p ∈ (s.pool candidate).bucket l := fun hp => (hg.suffix _).subset hp
  have hleftover : ∀ {l : Nat} {p : RequestSentence}, p ∈ pool.bucket l →
      p ∈ (List.range ((s.pool candidate).maxActiveBucketLength + 1)).flatMap pool.bucket := by
    intro l p hp
    refine List.mem_flatMap.mpr ⟨l, List.mem_range.mpr (Nat.lt_succ_of_le ?_), hp⟩
    exact (hs.pooled _ _ p (hsubset hp)).2.2.2
  have htaken : ∀ p ∈ taken, ∃ l, p ∈ (s.pool candidate).bucket l :=
    fun p hp => (hg.short p hp).imp fun _ h => h.1
  constructor
  · intro m l p hp
    dsimp only at hp ⊢
    by_cases hm : m = candidate
    · subst hm
      rw [hself] at hp ⊢
      rw [hg.max_eq]
      exact hs.pooled _ _ p (hsubset hp)
    · rw [hpool m hm] at hp ⊢
      exact hs.pooled _ _ p hp
  · intro m l
    dsimp only
    by_cases hm : m = candidate
    · subst hm
      rw [hself]
      exact (hs.nodup _ l).sublist (hg.suffix l).sublist
    · rw [hpool m hm]
      exact hs.nodup m l
  · exact hnodup.1
  · intro p hp
    obtain ⟨l, hl⟩ := htaken p hp
    refine ⟨(hs.pooled _ _ p hl).1, fun hlost => (hs.thrown p hlost).2 _ _ hl,
      fun m l' hmem => ?_⟩
    dsimp only at hmem
    by_cases hm : m = candidate
    · subst hm
      rw [hself] at hmem
      exact hnodup.2.2 p hp p (hleftover hmem) rfl
    · rw [hpool m hm] at hmem
      exact hm ((hs.pooled _ _ p hmem).2.1.symm.trans (hs.pooled _ _ p hl).2.1)
  · intro p hp
    refine ⟨(hs.thrown p hp).1, fun m l hmem => ?_⟩
    dsimp only at hmem
    by_cases hm : m = candidate
    · subst hm
      rw [hself] at hmem
      exact (hs.thrown p hp).2 _ _ (hsubset hmem)
    · rw [hpool m hm] at hmem
      exact (hs.thrown p hp).2 _ _ hmem
  · intro p hlt
    dsimp only
    rw [hs.waiting p hlt]
    by_cases hm : (s.requests p.request).model = candidate
    · rw [hm, hself]
      constructor
      · rintro (hp | hp | ⟨l, hp⟩)
        · exact absurd hp List.not_mem_nil
        · exact .inr (.inl hp)
        · have hmem := hs.mem_pending hp
          rw [BatchingPool.pending, ← hpending] at hmem
          refine (List.mem_append.mp hmem).imp_right fun hmem => .inr ?_
          obtain ⟨l', -, hp'⟩ := List.mem_flatMap.mp hmem
          exact ⟨l', hp'⟩
      · rintro (hp | hp | ⟨l, hp⟩)
        · exact .inr (.inr (htaken p hp))
        · exact .inr (.inl hp)
        · exact .inr (.inr ⟨l, hsubset hp⟩)
    · rw [hpool _ hm]
      refine or_congr_left ⟨fun hp => absurd hp List.not_mem_nil, fun hp => ?_⟩
      obtain ⟨l, hl⟩ := htaken p hp
      exact absurd (hs.pooled _ _ p hl).2.1 hm
  · exact hs.counts
  · exact hs.cached
  · intro m hm l p hp
    dsimp only at hp
    by_cases heq : m = candidate
    · subst heq
      rw [hself] at hp
      exact hg.long (hleft hm) l
        (List.mem_range.mpr (Nat.lt_succ_of_le (hs.pooled _ _ p (hsubset hp)).2.2.2))
        (List.ne_nil_of_mem hp)
    · rw [hpool m heq] at hp
      exact hs.idle m (hqueue m hm heq) l p hp

/-- What the search found for a sentence of the batch comes in. -/
theorem Waits.processHistory {p : RequestSentence} (hs : s.Waits host asked lost (p :: batch))
    {history : η}
    (hfound : host.Found asked (s.requests p.request).model (s.underlyingSegment p) history) :
    (s.processHistory p history).Waits host asked lost batch := by
  obtain ⟨hlt, hkeptApart, hunpooled⟩ := hs.taken p List.mem_cons_self
  have hcounts := hs.counts p.request hlt
  have hnull := (hs.waiting p hlt).mpr (.inl List.mem_cons_self)
  have hindex : p.index < (s.requests p.request).segments.length := by
    rw [← hcounts.length]
    exact (List.getElem?_eq_some_iff.mp hnull).1
  have hsegment : (s.requests p.request).segments[p.index]? = some (s.underlyingSegment p) := by
    rw [underlyingSegment, List.getElem?_eq_getElem hindex]
    rfl
  have hrequest : ∀ id, id ≠ p.request →
      (s.processHistory p history).requests id = s.requests id :=
    fun id hid => Function.update_of_ne hid _ _
  have hself : (s.processHistory p history).requests p.request
      = (s.requests p.request).processHistory p.index history := Function.update_self _ _ _
  -- the request keeps what its sentences are
  have hkept : ∀ id, ((s.processHistory p history).requests id).model = (s.requests id).model
      ∧ ((s.processHistory p history).requests id).segments = (s.requests id).segments := by
    intro id
    by_cases hid : id = p.request
    · subst hid
      rw [hself]
      exact ⟨rfl, rfl⟩
    · rw [hrequest id hid]
      exact ⟨rfl, rfl⟩
  have hnodup := List.nodup_cons.mp hs.taken_nodup
  constructor
  · intro m l q hq
    rw [Request.segmentTokens, (hkept _).1, (hkept _).2]
    exact hs.pooled m l q hq
  · exact hs.nodup
  · exact hnodup.2
  · exact fun q hq => hs.taken q (List.mem_cons_of_mem _ hq)
  · exact hs.thrown
  · intro q hq
    rw [(hkept _).1]
    by_cases hqp : q = p
    · subst hqp
      rw [hself]
      constructor
      · intro h
        simp only [Request.processHistory] at h
        rw [List.getElem?_set_self (List.getElem?_eq_some_iff.mp hnull).1] at h
        cases h
      · rintro (hmem | hmem | ⟨l, hmem⟩)
        · exact absurd hmem hnodup.1
        · exact absurd hmem hkeptApart
        · exact absurd hmem (hunpooled _ l)
    · have hwaiting := hs.waiting q hq
      rw [List.mem_cons, or_iff_right hqp] at hwaiting
      refine Iff.trans ?_ hwaiting
      by_cases hid : q.request = p.request
      · have hne : p.index ≠ q.index := by
          intro heq
          refine hqp ?_
          obtain ⟨request, index⟩ := q
          obtain rfl : request = p.request := hid
          obtain rfl : p.index = index := heq
          rfl
        rw [hid, hself]
        simp only [Request.processHistory]
        rw [List.getElem?_set_ne hne]
      · rw [hrequest _ hid]
  · intro id hid
    by_cases heq : id = p.request
    · subst heq
      rw [hself]
      exact hcounts.processHistory hnull hsegment hfound
    · rw [hrequest id heq]
      exact hs.counts id hid
  · intro cache hcache
    obtain ⟨cache', hcache', rfl⟩ := Option.map_eq_some_iff.mp hcache
    obtain ⟨hkeys, hholds⟩ := hs.cached cache' hcache'
    exact ⟨hkeys, hholds.store (hcounts.requested _ (List.mem_of_getElem? hsegment)) hfound⟩
  · exact hs.idle

/-- A batch that threw is lost. -/
theorem Waits.throw (hs : s.Waits host asked lost batch) : s.Waits host asked (batch ++ lost) [] where
  pooled := hs.pooled
  nodup := hs.nodup
  taken_nodup := List.nodup_nil
  taken := fun p hp => absurd hp List.not_mem_nil
  thrown := by
    intro p hp
    rcases List.mem_append.mp hp with hp | hp
    · exact ⟨(hs.taken p hp).1, (hs.taken p hp).2.2⟩
    · exact hs.thrown p hp
  waiting := by
    intro p hlt
    rw [hs.waiting p hlt, List.mem_append, or_assoc, or_iff_right List.not_mem_nil]
  counts := hs.counts
  cached := hs.cached
  idle := hs.idle

/-! ## The loop over the batches -/

/-- The same requests for the same segments, of the same models; a history
that is there stays. -/
structure Keeps (s s' : BlockingService η) : Prop where
  requestId : s'.requestId = s.requestId
  model : ∀ id, (s'.requests id).model = (s.requests id).model
  segments : ∀ id, (s'.requests id).segments = (s.requests id).segments
  null : ∀ id (i : Nat), (s'.requests id).histories[i]? = some none →
    (s.requests id).histories[i]? = some none

theorem Keeps.of_requests {s s' : BlockingService η} (hid : s'.requestId = s.requestId)
    (h : s'.requests = s.requests) : s.Keeps s' :=
  ⟨hid, fun _ => by rw [h], fun _ => by rw [h], fun _ _ hnull => h ▸ hnull⟩

theorem Keeps.trans {s s' s'' : BlockingService η} (h : s.Keeps s') (h' : s'.Keeps s'') :
    s.Keeps s'' :=
  ⟨h'.requestId.trans h.requestId, fun id => (h'.model id).trans (h.model id),
    fun id => (h'.segments id).trans (h.segments id),
    fun id i hnull => h.null id i (h'.null id i hnull)⟩

theorem keeps_processHistory (s : BlockingService η) (p : RequestSentence) (history : η) :
    s.Keeps (s.processHistory p history) := by
  have hcases : ∀ id, (s.processHistory p history).requests id = s.requests id
      ∨ (s.processHistory p history).requests id
        = (s.requests id).processHistory p.index history := by
    intro id
    by_cases hid : id = p.request
    · subst hid
      exact .inr (Function.update_self _ _ _)
    · exact .inl (Function.update_of_ne hid _ _)
  refine ⟨rfl, fun id => ?_, fun id => ?_, fun id i hnull => ?_⟩
  · rcases hcases id with h | h <;> rw [h]
    rfl
  · rcases hcases id with h | h <;> rw [h]
    rfl
  · rcases hcases id with h | h <;> rw [h] at hnull
    · exact hnull
    · simp only [Request.processHistory, List.getElem?_set] at hnull
      split at hnull
      · split at hnull <;> cases hnull
      · exact hnull

theorem Keeps.underlyingSegment {s s' : BlockingService η} (h : s.Keeps s')
    (p : RequestSentence) : s'.underlyingSegment p = s.underlyingSegment p := by
  rw [BlockingService.underlyingSegment, h.segments]
  rfl

/-- A batch that was searched is completed; the queue and the pools stay. -/
theorem Waits.completeBatch {histories : List η} (hlength : histories.length = batch.length)
    (hfound : ∀ (k : Nat) p history, batch[k]? = some p → histories[k]? = some history →
      host.Found asked (s.requests p.request).model (s.underlyingSegment p) history)
    (hs : s.Waits host asked lost batch) :
    (s.completeBatch batch histories).Waits host asked lost []
      ∧ s.Keeps (s.completeBatch batch histories)
      ∧ (s.completeBatch batch histories).queue = s.queue
      ∧ (s.completeBatch batch histories).pool = s.pool := by
  induction batch generalizing s histories with
  | nil =>
      unfold BlockingService.completeBatch
      exact ⟨hs, .of_requests rfl rfl, rfl, rfl⟩
  | cons p batch ih =>
      cases histories with
      | nil => cases hlength
      | cons history histories =>
          have hkeeps := keeps_processHistory s p history
          obtain ⟨hwaits, hkeeps', hqueue, hpool⟩ := ih (Nat.succ.inj hlength)
            (fun k q history' hq hhistory => by
              rw [hkeeps.model, hkeeps.underlyingSegment]
              exact hfound (k + 1) q history' hq hhistory)
            (hs.processHistory (hfound 0 p history rfl rfl))
          rw [BlockingService.completeBatch]
          exact ⟨hwaits, hkeeps.trans hkeeps', hqueue, hpool⟩

/-- What `generateBatch` leaves to do. -/
theorem turns_le {pools pools' : Nat → BatchingPool}
    (h : ∀ model, (pools' model).pending.length ≤ (pools model).pending.length)
    (queue : List Nat) :
    (queue.map fun model => (pools' model).pending.length).sum
      ≤ (queue.map fun model => (pools model).pending.length).sum :=
  List.sum_le_sum fun model _ => h model

theorem Waits.generateFrom (queue : List Nat) {s : BlockingService η}
    (hs : ({ s with queue := queue } : BlockingService η).Waits host asked lost []) :
    (∀ s', generateFrom host queue s = (none, s') →
        s'.Waits host asked lost [] ∧ s.Keeps s' ∧ s'.queue = [])
      ∧ ∀ model taken s', generateFrom host queue s = (some (model, taken), s') →
        s'.Waits host asked lost taken ∧ s.Keeps s'
          ∧ s'.turns < ({ s with queue := queue } : BlockingService η).turns ∧ taken ≠ []
          ∧ ∀ p ∈ taken, (s.requests p.request).model = model
            ∧ (s.requests p.request).segmentTokens p.index ≤ host.miniBatchWords model := by
  induction queue generalizing s with
  | nil =>
      refine ⟨fun s' h => ?_, fun model taken s' h => by cases h⟩
      obtain rfl : _ = s' := congrArg Prod.snd h
      exact ⟨hs, .of_requests rfl rfl, rfl⟩
  | cons candidate queue ih =>
      have hg := BatchingPool.generateBatch_spec (host.miniBatchWords candidate) (s.pool candidate)
      rw [BlockingService.generateFrom]
      dsimp only
      generalize (s.pool candidate).generateBatch (host.miniBatchWords candidate) = generated at hg ⊢
      have hlength : generated.1.length + generated.2.pending.length
          = (s.pool candidate).pending.length := by
        rw [BatchingPool.pending, hg.max_eq, ← List.length_append, hg.pending]
        rfl
      have hself : Function.update s.pool candidate generated.2 candidate = generated.2 :=
        Function.update_self _ _ _
      have hle : ∀ m, (Function.update s.pool candidate generated.2 m).pending.length
          ≤ (s.pool m).pending.length := by
        intro m
        by_cases hm : m = candidate
        · subst hm
          rw [hself]
          omega
        · rw [Function.update_of_ne hm]
      have hrest := turns_le hle queue
      split
      · -- nothing fits: the model leaves the queue
        rename_i hnone
        have hqueue : ∀ m, m ∉ queue → m ≠ candidate → m ∉ candidate :: queue :=
          fun m hm hne hmem => (List.mem_cons.mp hmem).elim hne hm
        have hs' := hs.generate hg hqueue (fun _ => hnone)
        rw [hnone] at hs'
        obtain ⟨hnothing, hsome⟩ :=
          @ih { s with pool := Function.update s.pool candidate generated.2 } hs'
        refine ⟨fun s' h => ?_, fun model taken s' h => ?_⟩
        · obtain ⟨hwaits, hkeeps, hqueue⟩ := hnothing s' h
          exact ⟨hwaits, ⟨hkeeps.requestId, hkeeps.model, hkeeps.segments, hkeeps.null⟩, hqueue⟩
        · obtain ⟨hwaits, hkeeps, hturns, htaken⟩ := hsome model taken s' h
          refine ⟨hwaits, ⟨hkeeps.requestId, hkeeps.model, hkeeps.segments, hkeeps.null⟩, ?_,
            htaken⟩
          refine Nat.lt_of_lt_of_le hturns ?_
          simp only [BlockingService.turns, List.map_cons, List.sum_cons]
          omega
      · rename_i hsome
        refine ⟨fun s' h => absurd (congrArg Prod.fst h) (by simp), fun model taken s' h => ?_⟩
        obtain ⟨heq, rfl⟩ := Prod.mk.inj h
        obtain ⟨rfl, rfl⟩ := Prod.mk.inj (Option.some.inj heq)
        have hqueue : ∀ m, m ∉ candidate :: queue → m ≠ candidate → m ∉ candidate :: queue :=
          fun m hm _ => hm
        have hs' := hs.generate hg hqueue (fun hnot => absurd List.mem_cons_self hnot)
        refine ⟨hs', .of_requests rfl rfl, ?_, hsome, fun p hp => ?_⟩
        · have hpos := List.length_pos_of_ne_nil hsome
          simp only [BlockingService.turns, List.map_cons, List.sum_cons, hself]
          omega
        · obtain ⟨l, hl, hshort⟩ := hg.short p hp
          obtain ⟨-, hmodel, htokens, -⟩ := hs.pooled _ _ p hl
          exact ⟨hmodel, htokens ▸ hshort⟩

/-- The search threw at a batch of sentences that wait. -/
structure Threw (host : BatchHost η) (message : String) (model : Nat)
    (batch : List RequestSentence) (s : BlockingService η) : Prop where
  nonempty : batch ≠ []
  search : host.search model (batch.map s.underlyingSegment) = .error message
  waiting : ∀ p ∈ batch, p.request < s.requestId ∧ (s.requests p.request).model = model
    ∧ (s.requests p.request).histories[p.index]? = some none
  fits : ∀ p ∈ batch, (s.requests p.request).segmentTokens p.index ≤ host.miniBatchWords model

/-- The batches end: nothing is left that fits into one, or a search has
thrown. -/
theorem Waits.translateBatches
    (hsearch : ∀ model batch histories, host.search model batch = .ok histories →
      histories.length = batch.length) (fuel : Nat) {s : BlockingService η}
    (hs : s.Waits host asked lost []) (hfuel : s.turns ≤ fuel) :
    ∃ outcome s', s.translateBatches host fuel = some (outcome, s') ∧ s.Keeps s'
      ∧ ((outcome = .ok () ∧ s'.Waits host asked lost [] ∧ s'.queue = [])
        ∨ ∃ message model batch, outcome = .error message ∧ s'.Threw host message model batch
          ∧ (∀ p ∈ batch, p ∉ lost) ∧ s'.Waits host asked (batch ++ lost) []) := by
  induction fuel generalizing s with
  | zero => exact absurd hfuel (Nat.not_le_of_lt (Nat.succ_pos _))
  | succ fuel ih =>
      obtain ⟨hnothing, hsome⟩ := Waits.generateFrom s.queue hs
      rw [BlockingService.translateBatches, BlockingService.generateBatch]
      cases hgenerated : BlockingService.generateFrom host s.queue s with
      | mk generated s₁ =>
      cases generated with
      | none =>
          obtain ⟨hwaits, hkeeps, hqueue⟩ := hnothing s₁ hgenerated
          exact ⟨.ok (), s₁, rfl, hkeeps, .inl ⟨rfl, hwaits, hqueue⟩⟩
      | some generated =>
          obtain ⟨model, taken⟩ := generated
          obtain ⟨hwaits, hkeeps, hturns, hne, htaken⟩ := hsome model taken s₁ hgenerated
          have hfits : ∀ p ∈ taken, (s₁.requests p.request).model = model
              ∧ (s₁.requests p.request).segmentTokens p.index ≤ host.miniBatchWords model := by
            intro p hp
            rw [hkeeps.model, Request.segmentTokens, hkeeps.segments]
            exact htaken p hp
          dsimp only
          cases hfind : host.search model (taken.map s₁.underlyingSegment) with
          | error message =>
              have hthrew : s₁.Threw host message model taken := by
                refine ⟨hne, hfind, fun p hp => ?_, fun p hp => (hfits p hp).2⟩
                have hlt := (hwaits.taken p hp).1
                exact ⟨hlt, (hfits p hp).1, (hwaits.waiting p hlt).mpr (.inl hp)⟩
              exact ⟨.error message, s₁, rfl, hkeeps, .inr ⟨message, model, taken, rfl, hthrew,
                fun p hp => (hwaits.taken p hp).2.1, hwaits.throw⟩⟩
          | ok histories =>
              have hlength : histories.length = taken.length := by
                rw [hsearch _ _ _ hfind, List.length_map]
              have hasked : ∀ segment ∈ taken.map s₁.underlyingSegment,
                  asked model segment ∧ segment.length ≤ host.miniBatchWords model := by
                intro segment hmem
                obtain ⟨p, hp, rfl⟩ := List.mem_map.mp hmem
                obtain ⟨hlt, -⟩ := hwaits.taken p hp
                have hcounts := hwaits.counts _ hlt
                have hnull := (hwaits.waiting p hlt).mpr (.inl hp)
                have hindex : p.index < (s₁.requests p.request).segments.length := by
                  rw [← hcounts.length]
                  exact (List.getElem?_eq_some_iff.mp hnull).1
                have hsegment : s₁.underlyingSegment p
                    = (s₁.requests p.request).segments[p.index] := by
                  rw [BlockingService.underlyingSegment, List.getElem?_eq_getElem hindex]
                  rfl
                obtain ⟨hmodel, hshort⟩ := hfits p hp
                rw [Request.segmentTokens, List.getElem?_eq_getElem hindex] at hshort
                rw [hsegment, ← hmodel]
                exact ⟨hcounts.requested _ (List.getElem_mem hindex), hmodel ▸ hshort⟩
              have hfound : ∀ (k : Nat) p history, taken[k]? = some p →
                  histories[k]? = some history →
                  host.Found asked (s₁.requests p.request).model (s₁.underlyingSegment p)
                    history := by
                intro k p history hp hhistory
                rw [(hfits p (List.mem_of_getElem? hp)).1]
                exact ⟨_, histories, k, hfind, by rw [List.getElem?_map, hp]; rfl, hhistory, hasked⟩
              obtain ⟨hwaits', hkeeps', hqueue, hpool⟩ := hwaits.completeBatch hlength hfound
              have hturns' : (s₁.completeBatch taken histories).turns = s₁.turns := by
                rw [BlockingService.turns, BlockingService.turns, hqueue, hpool]
              obtain ⟨outcome, s', hrun, hkeeps'', hends⟩ := ih hwaits' (by
                rw [hturns']
                exact Nat.le_of_lt_succ (Nat.lt_of_lt_of_le hturns hfuel))
              exact ⟨outcome, s', hrun, (hkeeps.trans hkeeps').trans hkeeps'', hends⟩

/-! ## A call -/

/-- The requests of a call, one behind the other. -/
theorem Waits.enqueueAll (model : Nat) {sources : List (List Segment)} {s : BlockingService η}
    (hs : s.Waits host asked lost [])
    (hasked : ∀ segments ∈ sources, ∀ segment ∈ segments, asked model segment) :
    (sources.foldl (BlockingService.enqueue host model) s).Waits host asked lost []
      ∧ (sources.foldl (BlockingService.enqueue host model) s).requestId
        = s.requestId + sources.length
      ∧ (∀ id < s.requestId,
        (sources.foldl (BlockingService.enqueue host model) s).requests id = s.requests id)
      ∧ ∀ (i : Nat) segments, sources[i]? = some segments →
        ((sources.foldl (BlockingService.enqueue host model) s).requests (s.requestId + i)).model
            = model
          ∧ ((sources.foldl (BlockingService.enqueue host model) s).requests
            (s.requestId + i)).segments = segments := by
  induction sources generalizing s with
  | nil => exact ⟨hs, rfl, fun _ _ => rfl, fun i segments h => by cases h⟩
  | cons segments sources ih =>
      have hs₁ := hs.enqueue (hasked segments List.mem_cons_self)
      obtain ⟨hwaits, hid, hold, hnew⟩ :=
        ih hs₁ fun segments' hmem => hasked segments' (List.mem_cons_of_mem _ hmem)
      rw [List.foldl_cons]
      refine ⟨hwaits, ?_, fun id hlt => ?_, fun i segments' hsegments => ?_⟩
      · rw [hid, List.length_cons]
        show s.requestId + 1 + sources.length = _
        omega
      · rw [hold id (Nat.lt_succ_of_lt hlt)]
        exact Function.update_of_ne (Nat.ne_of_lt hlt) _ _
      · cases i with
        | zero =>
            obtain rfl := Option.some.inj hsegments
            rw [Nat.add_zero, hold _ (Nat.lt_succ_self _)]
            show (Function.update s.requests s.requestId _ s.requestId).model = _
              ∧ (Function.update s.requests s.requestId _ s.requestId).segments = _
            rw [Function.update_self]
            exact ⟨rfl, rfl⟩
        | succ i =>
            rw [show s.requestId + (i + 1) = s.requestId + 1 + i by omega]
            exact hnew i segments' hsegments

/-- A call, which returns or throws. -/
def step (host : BatchHost η) (s : BlockingService η) (call : Nat × List (List Segment)) :
    Option (BlockingService η) :=
  (s.translateMultipleRaw host call.1 call.2).map Prod.snd

end BlockingService

/-- A call for these segments alone. -/
def AsksFor {η : Type} (asked : Nat → Segment → Prop) (_ : BlockingService η)
    (call : Nat × List (List Segment)) : Prop :=
  ∀ segments ∈ call.2, ∀ segment ∈ segments, asked call.1 segment

/-- The callback of a request is called with the histories of its segments,
once; of one that has a segment which is too long it is not called. -/
structure BatchHost.Answers {η : Type} (host : BatchHost η) (asked : Nat → Segment → Prop)
    (model : Nat) (segments : List Segment) (completed : List (List (Option η))) : Prop where
  once : (∀ segment ∈ segments, segment.length ≤ host.miniBatchWords model) →
    ∃ histories : List η, completed = [histories.map some]
      ∧ List.Forall₂ (host.Found asked model) segments histories
  tooLong : (∃ segment ∈ segments, host.miniBatchWords model < segment.length) → completed = []

section Answers

variable {η : Type} {host : BatchHost η} {asked : Nat → Segment → Prop}
  {s : BlockingService η} {lost : List RequestSentence}

theorem exists_map_some {α : Type*} {l : List (Option α)} (h : none ∉ l) :
    ∃ l' : List α, l = l'.map some := by
  induction l with
  | nil => exact ⟨[], rfl⟩
  | cons a l ih =>
      rw [List.mem_cons, not_or] at h
      obtain ⟨l', rfl⟩ := ih h.2
      cases a with
      | none => exact absurd rfl h.1
      | some a => exact ⟨a :: l', rfl⟩

/-- With the queue empty, a request that has lost nothing waits for what is too
long. -/
theorem BlockingService.Waits.answers (hs : s.Waits host asked lost []) (hqueue : s.queue = [])
    {id : Nat} (hid : id < s.requestId) (hlost : ∀ p ∈ lost, p.request ≠ id) :
    host.Answers asked (s.requests id).model (s.requests id).segments (s.requests id).completed := by
  have hcounts := hs.counts id hid
  have hlength : ∀ {i : Nat}, i < (s.requests id).histories.length →
      i < (s.requests id).segments.length := fun h => hcounts.length ▸ h
  constructor
  · intro hshort
    have hnone : none ∉ (s.requests id).histories := by
      intro hmem
      obtain ⟨i, hi, hnull⟩ := List.mem_iff_getElem.mp hmem
      have hwaiting := hs.waiting ⟨id, i⟩ hid
      obtain hmem | hmem | ⟨l, hl⟩ := hwaiting.mp (List.getElem?_eq_some_iff.mpr ⟨hi, hnull⟩)
      · cases hmem
      · exact hlost _ hmem rfl
      have hlong := hs.idle _ (by rw [hqueue]; exact List.not_mem_nil) l _ hl
      obtain ⟨-, -, htokens, -⟩ := hs.pooled _ _ _ hl
      rw [Request.segmentTokens, List.getElem?_eq_getElem (hlength hi)] at htokens
      have hle := hshort _ (List.getElem_mem (hlength hi))
      rw [htokens] at hlong
      exact Nat.lt_irrefl _ (Nat.lt_of_lt_of_le hlong hle)
    have hzero : (s.requests id).counter = 0 := by
      rw [hcounts.counter, List.countP_eq_zero.mpr]
      · rfl
      · intro history hmem hnull
        exact hnone (Option.isNone_iff_eq_none.mp hnull ▸ hmem)
    obtain ⟨histories, hhistories⟩ := exists_map_some hnone
    refine ⟨histories, by rw [hcounts.completed, if_pos hzero, hhistories], ?_⟩
    have hlen : (s.requests id).segments.length = histories.length := by
      rw [← hcounts.length, hhistories, List.length_map]
    refine List.forall₂_of_length_eq_of_get hlen fun i h₁ h₂ => ?_
    refine hcounts.found i _ _ (List.getElem?_eq_getElem h₁) ?_
    rw [hhistories, List.getElem?_map, List.getElem?_eq_getElem h₂]
    rfl
  · rintro ⟨segment, hmem, hlong⟩
    obtain ⟨i, hi, rfl⟩ := List.mem_iff_getElem.mp hmem
    have hlt : i < (s.requests id).histories.length := hcounts.length ▸ hi
    have hnull : (s.requests id).histories[i] = none := by
      rw [Option.eq_none_iff_forall_not_mem]
      intro history hhistory
      -- what was found was in a batch, where the segment does not fit
      obtain ⟨batch, -, k, -, hk, -, hbatch⟩ := hcounts.found i _ history
        (List.getElem?_eq_getElem hi) (List.getElem?_eq_some_iff.mpr ⟨hlt, hhistory⟩)
      have hle := (hbatch _ (List.mem_of_getElem? hk)).2
      exact Nat.lt_irrefl _ (Nat.lt_of_lt_of_le hlong hle)
    exact hcounts.waiting (hnull ▸ List.getElem_mem hlt)

/-- The requests of a call, in the service that it leaves. -/
structure BlockingService.Called (s : BlockingService η) (model : Nat)
    (sources : List (List Segment)) (s' : BlockingService η) : Prop where
  requestId : s'.requestId = s.requestId + sources.length
  old : ∀ id < s.requestId, (s'.requests id).model = (s.requests id).model
    ∧ (s'.requests id).segments = (s.requests id).segments
  new : ∀ (i : Nat) segments, sources[i]? = some segments →
    (s'.requests (s.requestId + i)).model = model
      ∧ (s'.requests (s.requestId + i)).segments = segments

/-- A call ends. One that returns has emptied the queue; one that throws has
lost the batch that threw, which is of its own sentences when it found the queue
empty. -/
theorem BlockingService.Waits.translateMultipleRaw
    (hsearch : ∀ model batch histories, host.search model batch = .ok histories →
      histories.length = batch.length)
    (hs : s.Waits host asked lost []) {model : Nat} {sources : List (List Segment)}
    (hasked : ∀ segments ∈ sources, ∀ segment ∈ segments, asked model segment) :
    ∃ outcome s', s.translateMultipleRaw host model sources = some (outcome, s')
      ∧ s.Called model sources s'
      ∧ ((∃ answers, outcome = .ok answers ∧ s'.Waits host asked lost [] ∧ s'.queue = []
          ∧ List.Forall₂ (host.Answers asked model) sources answers)
        ∨ ∃ message model' batch, outcome = .error message
          ∧ s'.Threw host message model' batch
          ∧ (s.queue = [] → ∀ p ∈ batch, s.requestId ≤ p.request)
          ∧ s'.Waits host asked (batch ++ lost) []) := by
  obtain ⟨hwaits, hid, hold, hnew⟩ := hs.enqueueAll model hasked
  obtain ⟨outcome, s', hrun, hkeeps, hends⟩ :=
    hwaits.translateBatches hsearch _ (Nat.le_refl _)
  have hcalled : s.Called model sources s' := by
    refine ⟨hkeeps.requestId.trans hid, fun id hlt => ?_, fun i segments hsegments => ?_⟩
    · rw [hkeeps.model, hkeeps.segments, hold id hlt]
      exact ⟨rfl, rfl⟩
    · rw [hkeeps.model, hkeeps.segments]
      exact hnew i segments hsegments
  refine ⟨_, s', by rw [BlockingService.translateMultipleRaw, hrun, Option.map_some], hcalled, ?_⟩
  rcases hends with ⟨rfl, hwaits', hqueue⟩ |
    ⟨message, model', batch, rfl, hthrew, hkept, hwaits'⟩
  · refine .inl ⟨_, rfl, hwaits', hqueue, ?_⟩
    refine List.forall₂_of_length_eq_of_get (by simp) fun i h₁ h₂ => ?_
    obtain ⟨hmodel, hsegments⟩ := hcalled.new i _ (List.getElem?_eq_getElem h₁)
    have hlt : s.requestId + i < s'.requestId := by
      rw [hcalled.requestId]
      exact Nat.add_lt_add_left h₁ _
    have hanswers := hwaits'.answers hqueue hlt fun p hp heq =>
      Nat.not_le_of_lt (hs.thrown p hp).1 (heq ▸ Nat.le_add_right _ _)
    rw [hmodel, hsegments] at hanswers
    simpa using hanswers
  · refine .inr ⟨message, model', batch, rfl, hthrew, fun hqueue p hp => ?_, hwaits'⟩
    rw [← Nat.not_lt]
    intro hlt
    -- what an earlier call has left in a pool is too long
    obtain ⟨hmodel, hsegments⟩ := hcalled.old _ hlt
    obtain ⟨-, hmodel', hnull⟩ := hthrew.waiting p hp
    have hnull' := hkeeps.null _ _ hnull
    rw [hold _ hlt] at hnull'
    obtain hmem | hmem | ⟨l, hl⟩ := (hs.waiting p hlt).mp hnull'
    · cases hmem
    · exact hkept p hp hmem
    · have hlong := hs.idle _ (by rw [hqueue]; exact List.not_mem_nil) l p hl
      have hfits := hthrew.fits p hp
      obtain ⟨-, -, htokens, -⟩ := hs.pooled _ _ _ hl
      rw [Request.segmentTokens, hsegments, ← Request.segmentTokens, ← htokens, ← hmodel',
        hmodel] at hfits
      exact Nat.lt_irrefl _ (Nat.lt_of_lt_of_le hlong hfits)

theorem waits_of_reach
    (hsearch : ∀ model batch histories, host.search model batch = .ok histories →
      histories.length = batch.length)
    {cacheSize : Nat} (hkeys : 0 < cacheSize → DistinctKeys asked)
    (h : Machine.Reach (BlockingService.step host) (AsksFor asked) (.init cacheSize) s) :
    ∃ lost, s.Waits host asked lost [] := by
  refine h.invariant (I := fun s => ∃ lost, s.Waits host asked lost [])
    ⟨[], BlockingService.waits_init cacheSize hkeys⟩ fun s call s' _ hasks hstep hs => ?_
  obtain ⟨lost, hs⟩ := hs
  obtain ⟨outcome, hrun, rfl⟩ := Option.map_eq_some_iff.mp hstep
  obtain ⟨outcome', s'', hrun', -, hends⟩ := hs.translateMultipleRaw hsearch hasks
  obtain rfl := Option.some.inj (hrun'.symm.trans hrun)
  rcases hends with ⟨answers, -, hwaits, -⟩ | ⟨message, model, batch, -, -, -, hwaits⟩
  · exact ⟨lost, hwaits⟩
  · exact ⟨batch ++ lost, hwaits⟩

def BatchHost.echo : BatchHost Segment := ⟨fun _ => 4, id, fun _ _ => 0, fun _ batch => .ok batch⟩

def threeSegments (model : Nat) (segment : Segment) : Prop :=
  model = 7 ∧ segment ∈ [[1, 0], [2, 0], [3, 3, 3, 3, 0]]

theorem distinctKeys_threeSegments : DistinctKeys threeSegments where
  nonzero := by
    rintro model segment ⟨rfl, hmem⟩
    revert segment
    decide
  injective := by
    have hall : ∀ segment ∈ [[1, 0], [2, 0], [3, 3, 3, 3, 0]],
        ∀ segment' ∈ [[1, 0], [2, 0], [3, 3, 3, 3, 0]],
        hashForCache 7 segment = hashForCache 7 segment' → segment = segment' := by
      decide
    rintro model segment model' segment' ⟨rfl, hmem⟩ ⟨rfl, hmem'⟩ h
    exact ⟨rfl, hall segment hmem segment' hmem' h⟩

/-- **A call that throws lingers.** Its requests that wait for sentences which
are still in the pool are answered by the next call that returns: their
callbacks, which were not called before, are called, though the responses that
these write to are gone. Only those with a segment that is too long stay
unanswered. -/
theorem thrown_call_lingers
    (hsearch : ∀ model batch histories, host.search model batch = .ok histories →
      histories.length = batch.length)
    {cacheSize : Nat} (hkeys : 0 < cacheSize → DistinctKeys asked)
    (h : Machine.Reach (BlockingService.step host) (AsksFor asked) (.init cacheSize) s)
    {model model' : Nat} {sources sources' : List (List Segment)}
    (hasks : AsksFor asked s (model, sources)) {message : String} {s₁ s₂ : BlockingService η}
    (hthrew : s.translateMultipleRaw host model sources = some (.error message, s₁))
    (hasks' : AsksFor asked s₁ (model', sources'))
    {answers : List (List (List (Option η)))}
    (hreturned : s₁.translateMultipleRaw host model' sources' = some (.ok answers, s₂)) :
    ∀ (i : Nat) segments, sources[i]? = some segments →
      none ∈ (s₁.requests (s.requestId + i)).histories →
      (∀ j, (s₁.requests (s.requestId + i)).histories[j]? = some none →
        ∃ l, ⟨s.requestId + i, j⟩ ∈ (s₁.pool model).bucket l) →
      (s₁.requests (s.requestId + i)).completed = []
        ∧ host.Answers asked model segments (s₂.requests (s.requestId + i)).completed := by
  intro i segments hsegments hnull hpooled
  obtain ⟨lost, hs⟩ := waits_of_reach hsearch hkeys h
  obtain ⟨outcome, s₁', hrun, hcalled, hends⟩ := hs.translateMultipleRaw hsearch hasks
  obtain ⟨rfl, rfl⟩ := Prod.mk.inj (Option.some.inj (hrun.symm.trans hthrew))
  obtain ⟨_, hok, -⟩ | ⟨_, _, batch, -, -, -, hs₁⟩ := hends
  · cases hok
  obtain ⟨outcome', s₂', hrun', hcalled', hends'⟩ := hs₁.translateMultipleRaw hsearch hasks'
  obtain ⟨rfl, rfl⟩ := Prod.mk.inj (Option.some.inj (hrun'.symm.trans hreturned))
  obtain ⟨_, -, hs₂, hqueue, -⟩ | ⟨_, _, _, herror, -⟩ := hends'
  · have hlt : s.requestId + i < s₁'.requestId := by
      rw [hcalled.requestId]
      exact Nat.add_lt_add_left (List.getElem?_eq_some_iff.mp hsegments).1 _
    have hlt' : s.requestId + i < s₂'.requestId := by
      rw [hcalled'.requestId]
      exact Nat.lt_of_lt_of_le hlt (Nat.le_add_right _ _)
    obtain ⟨hmodel, hkept⟩ := hcalled.new i segments hsegments
    obtain ⟨hmodel', hkept'⟩ := hcalled'.old _ hlt
    have hanswers := hs₂.answers hqueue hlt' fun p hp heq => by
      obtain ⟨request, index⟩ := p
      obtain rfl : request = s.requestId + i := heq
      obtain ⟨hold, hunpooled⟩ := hs₁.thrown _ hp
      obtain ⟨l, hl⟩ := hpooled index ((hs₁.waiting _ hold).mpr (.inr (.inl hp)))
      exact hunpooled model l hl
    rw [hmodel', hmodel, hkept', hkept] at hanswers
    exact ⟨(hs₁.counts _ hlt).waiting hnull, hanswers⟩
  · cases herror

/-! A search that throws at the word 9. -/

def BatchHost.thrower : BatchHost Segment where
  miniBatchWords := fun _ => 4
  address := id
  slot := fun _ _ => 0
  search := fun _ batch => if batch.any (·.contains 9) then .error "nine" else .ok batch

def nineAndOnes (model : Nat) (segment : Segment) : Prop :=
  model = 7 ∧ segment ∈ [[9, 0], [1, 1, 1, 0]]

theorem distinctKeys_nineAndOnes : DistinctKeys nineAndOnes where
  nonzero := by
    rintro model segment ⟨rfl, hmem⟩
    revert segment
    decide
  injective := by
    have hall : ∀ segment ∈ [[9, 0], [1, 1, 1, 0]], ∀ segment' ∈ [[9, 0], [1, 1, 1, 0]],
        hashForCache 7 segment = hashForCache 7 segment' → segment = segment' := by
      decide
    rintro model segment model' segment' ⟨rfl, hmem⟩ ⟨rfl, hmem'⟩ h
    exact ⟨rfl, hall segment hmem segment' hmem' h⟩

/-- The second text of a call that threw on the first one, answered by a call
without texts; there is a cache. -/
theorem thrown_call_lingers_second :
    ∃ s₁ s₂ : BlockingService Segment,
      (BlockingService.init 2).translateMultipleRaw .thrower 7 [[[9, 0]], [[1, 1, 1, 0]]]
        = some (.error "nine", s₁)
      ∧ s₁.translateMultipleRaw .thrower 7 [] = some (.ok [], s₂)
      ∧ (s₁.requests 1).completed = []
      ∧ BatchHost.thrower.Answers nineAndOnes 7 [[1, 1, 1, 0]] (s₂.requests 1).completed := by
  refine ⟨_, _, rfl, rfl, ?_⟩
  refine @thrown_call_lingers Segment .thrower nineAndOnes (.init 2) ?_ 2
    (fun _ => distinctKeys_nineAndOnes) .init 7 7 [[[9, 0]], [[1, 1, 1, 0]]] []
    (by simp [AsksFor, nineAndOnes]) "nine" _ _ rfl (by simp [AsksFor]) [] rfl 1 _ rfl ?_ ?_
  · intro model batch histories h
    simp only [BatchHost.thrower] at h
    split at h
    · cases h
    · obtain rfl := Except.ok.inj h
      rfl
  · exact List.mem_singleton_self _
  · intro j hnull
    have hfirst : ∀ j : Nat, [(none : Option Segment)][j]? = some none → j = 0 := by
      intro j h
      have hlt := (List.getElem?_eq_some_iff.mp h).1
      rw [List.length_singleton] at hlt
      omega
    obtain rfl := hfirst j hnull
    exact ⟨4, List.mem_singleton_self _⟩

end Answers

end Dragomand
