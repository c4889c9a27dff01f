import Dragomand.Program
import Dragomand.Workers

/-!
# The Translator1 interface

The slow methods of the interface, each as the checks its handler makes
before `spawn_request` and the future it spawns. A future is a `Prog`
over `Op`: what it asks of the store, the registry, the network and the
bus, one question at a time. The names of the parts are the source's.
-/

namespace Dragomand

def MAX_SEGMENTS : Nat := 256
def MAX_TOTAL_BYTES : Nat := 2 ^ 20
/-- `TranslateFd` reads at most this much. -/
def MAX_DOCUMENT_BYTES : Nat := 64 * 2 ^ 20
/-- `TranslateFd` translates this many lines (and at most
`MAX_TOTAL_BYTES`) per step, reporting progress in between. -/
def DOCUMENT_CHUNK_LINES : Nat := 64

/-- What the daemon takes from outside: the engine, `Error`'s `to_string`,
the standard library's `{:?}` and `char::is_alphanumeric`, and the
resolution of the clock. -/
structure Host where
  translate : ModelSpec → Option ModelSpec → Bool → List String → List Translation
  display : Error → String
  debug : String → String
  is_alphanumeric : Char → Bool
  ticksPerSecond : Nat

structure Config where
  memory_budget_mb : Nat
  keep_warm : Nat
  keep_warm_seconds : Nat
  idle_exit_seconds : Nat
  network : Bool
  allow_prerelease : Bool
deriving DecidableEq, Repr

def Config.default : Config where
  memory_budget_mb := 512
  keep_warm := 2
  keep_warm_seconds := 600
  idle_exit_seconds := 60
  network := true
  allow_prerelease := false

def Config.idle_exit (config : Config) (host : Host) : Nat :=
  config.idle_exit_seconds * host.ticksPerSecond

/-! ## Arguments -/

def valid_lang (tag : String) : Bool :=
  tag ≠ "" && tag.utf8ByteSize ≤ 16
    && tag.toList.all (fun c => c.isAlphanum || c == '-')
    && tag.toList.head? ≠ some '-'
    && tag.toList.getLast? ≠ some '-'

def check_langs (host : Host) (source target : String) : Except Error Unit :=
  if !valid_lang source || !valid_lang target || source = target then
    .error (.invalidArgument
      ("bad language pair " ++ host.debug source ++ " -> " ++ host.debug target))
  else .ok ()

/-- What to translate with: the pair, and how. -/
structure service.Route where
  source : String
  target : String
  allow_pivot : Bool
  html : Bool
  priority : Priority
deriving DecidableEq, Repr

/-! ## Sentence spans -/

/-- `str::is_char_boundary`. -/
def isCharBoundary : List Char → Nat → Bool
  | _, 0 => true
  | [], _ + 1 => false
  | c :: text, byte => c.utf8Size ≤ byte && isCharBoundary text (byte - c.utf8Size)

/-- The last boundary up to `byte`. -/
def boundaryBefore (text : List Char) : Nat → Nat
  | 0 => 0
  | byte + 1 => if isCharBoundary text (byte + 1) then byte + 1 else boundaryBefore text byte

/-- The characters of the first `byte` bytes. -/
def charsBefore : List Char → Nat → Nat
  | [], _ => 0
  | c :: text, byte =>
      if c.utf8Size ≤ byte then charsBefore text (byte - c.utf8Size) + 1 else 0

/-- Unicode code point offset of byte offset `byte` in `text`. -/
def code_points (text : String) (byte : Nat) : Nat :=
  let byte := min byte text.utf8ByteSize
  charsBefore text.toList (boundaryBefore text.toList byte) % 2 ^ 32

/-- (source begin, source end, translation begin, translation end) per
sentence, in code points. -/
def sentence_spans (source : String) (translation : Translation) :
    List (Nat × Nat × Nat × Nat) :=
  translation.sentences.map fun pair =>
    (code_points source pair.source.1, code_points source pair.source.2,
      code_points translation.text pair.target.1, code_points translation.text pair.target.2)

/-! ## Operations -/

/-- `UpdateInfo`: source, target, installed and available version. -/
structure UpdateInfo where
  source : String
  target : String
  installed : String
  available : String
deriving DecidableEq, Repr

inductive Op where
  /-- the task of the request polls its future for the first time -/
  | start
  | config
  /-- the stores, as `resolve` finds them -/
  | stores
  | ensure_loaded (source target : String) (allow_pivot : Bool) (budget_mb : Nat)
  | submit (entry : Nat) (segments : List String) (html : Bool) (priority : Priority)
  | receive (entry receiver : Nat)
  | pivot (entry : Nat)
  /-- an `Arc<PairEntry>` goes out of scope -/
  | drop (entry : Nat)
  | emit_progress (fraction : Nat × Nat) (stage : String)
  | install_pair (source target : String)
  | check_for_updates
  | refresh
  | read_document (limit : Nat)
  | write_document (text : String)
deriving DecidableEq, Repr

/-- What each operation returns; `receive` returns nothing when the sender
is gone. -/
@[reducible] def Op.Answer : Op → Type
  | .start | .drop _ | .emit_progress _ _ | .refresh => Unit
  | .config => Config
  | .stores => Disk
  | .ensure_loaded _ _ _ _ => Except Error Nat
  | .submit _ _ _ _ => Option Nat
  | .receive _ _ => Option JobResult
  | .pivot _ => Option String
  | .install_pair _ _ => Except Error InstalledModel
  | .check_for_updates => Except Error (List UpdateInfo)
  | .read_document _ => Except Error String
  | .write_document _ => Except Error Unit

/-- The operations at which the future yields to its task, which may then
take the cancellation instead. -/
def Op.awaits : Op → Bool
  | .config | .stores | .submit _ _ _ _ | .pivot _ | .drop _ => false
  | _ => true

abbrev Async := Prog Op.Answer Error

def ask (op : Op) : Async op.Answer := Prog.ask op

def ofResult {α : Type} (result : Except Error α) : Async α := .done result

def require_network : Async Unit := do
  let config ← ask .config
  if config.network then pure ()
  else .throw (.networkDisabled "downloads and update checks are disabled by configuration")

def ensure_loaded (source target : String) (allow_pivot : Bool) : Async Nat := do
  let config ← ask .config
  let entry ← ask (.ensure_loaded source target allow_pivot config.memory_budget_mb)
  ofResult entry

def install_pair (source target : String) : Async InstalledModel := do
  let installed ← ask (.install_pair source target)
  ofResult installed

/-! ## The futures -/

/-- Translates `segments` on the route, loading it when needed. A route can
be evicted between lookup and submit; that is retried, `attempts` times in
all. -/
def run_translation (route : service.Route) (segments : List String) :
    Nat → Async (List Translation × Option String)
  | 0 => .throw (.engineFailure "route kept unloading")
  | attempts + 1 => do
      let entry ← ensure_loaded route.source route.target route.allow_pivot
      match ← ask (.submit entry segments route.html route.priority) with
      | none =>
          ask (.drop entry)
          run_translation route segments attempts
      | some receiver =>
          match ← ask (.receive entry receiver) with
          | some (.ok translations) =>
              let pivot ← ask (.pivot entry)
              ask (.drop entry)
              pure (translations, pivot)
          | some (.error .cancelled) =>
              -- the request task turns this into a CANCELLED response
              ask (.drop entry)
              .throw (.engineFailure "cancelled")
          | some (.error (.engine message)) =>
              ask (.drop entry)
              .throw (.engineFailure message)
          | none =>
              ask (.drop entry)
              .throw (.engineFailure "worker vanished")

def pivotResult (pivot : Option String) : Results :=
  match pivot with
  | none => []
  | some pivot => [(result_key.PIVOT, .str pivot)]

def translate (route : service.Route) (segments : List String) (want_sentences : Bool) :
    Async Results := do
  ask .start
  let (translations, pivot) ← run_translation route segments 2
  let sentences : Results :=
    if want_sentences then
      [(result_key.SENTENCES, .spans (List.zipWith sentence_spans segments translations))]
    else []
  pure (sentences ++ [(result_key.TRANSLATIONS, .strs (translations.map (·.text)))]
    ++ pivotResult pivot)

/-- The lines of the next step: at most `DOCUMENT_CHUNK_LINES`, and no
more than `MAX_TOTAL_BYTES` unless the first line alone is longer. -/
def documentChunk (lines : List String) : Nat → Nat → List Nat → List Nat
  | _, _, [] => []
  | count, bytes, line :: rest =>
      let len := (lines.getD line "").utf8ByteSize
      if count = DOCUMENT_CHUNK_LINES || (count ≠ 0 && bytes + len > MAX_TOTAL_BYTES) then []
      else line :: documentChunk lines (count + 1) (bytes + len) rest

/-- The translation of each line in its place. -/
def setLines (lines : List String) (chunk : List Nat) (translations : List Translation) :
    List String :=
  (chunk.zip translations).foldl (fun lines t => lines.set t.1 t.2.text) lines

/-- The loop of `translate_fd`. Every step takes a line at least, so that
as many steps as there are lines are enough. -/
def translateLines (route : service.Route) (wanted : List Nat) :
    Nat → Nat → List String → Option String → Async (List String × Option String)
  | 0, _, lines, pivot => pure (lines, pivot)
  | steps + 1, done, lines, pivot =>
      if done < wanted.length then do
        let chunk := documentChunk lines 0 0 (wanted.drop done)
        let (translations, pivot) ←
          run_translation route (chunk.map fun line => lines.getD line "") 2
        if translations.length ≠ chunk.length then
          .throw (.engineFailure "the engine lost lines")
        else
          let done := done + chunk.length
          ask (.emit_progress (done, wanted.length) "translating")
          translateLines route wanted steps done (setLines lines chunk translations) pivot
      else pure (lines, pivot)

/-- Line by line: every line with a letter or digit is a segment, the
others are copied. -/
def translate_fd (host : Host) (route : service.Route) : Async Results := do
  ask .start
  let text ← (ask (.read_document MAX_DOCUMENT_BYTES) >>= ofResult)
  let lines := (text.toList.splitOn '\n').map String.ofList
  let wanted := (List.range lines.length).filter fun i =>
    (lines.getD i "").toList.any host.is_alphanumeric
  let (lines, pivot) ← translateLines route wanted wanted.length 0 lines none
  (ask (.write_document ("\n".intercalate lines)) >>= ofResult)
  pure ([(result_key.LINES, .u32 (wanted.length % 2 ^ 32))] ++ pivotResult pivot)

def installLegs : List Key → Async Unit
  | [] => pure ()
  | (source, target) :: legs => do
      let stores ← ask .stores
      if (stores.resolve source target).isNone then
        let _ ← install_pair source target
        installLegs legs
      else installLegs legs

/-- Install whatever the route is missing: the one part of `prepare_pair`
that may touch the network. -/
def installMissing (source target : String) (allow_pivot : Bool) : Async Unit := do
  let stores ← ask .stores
  match plan_route stores source target allow_pivot with
  | .ok _ => pure ()
  | .error _ => do
      require_network
      ask (.emit_progress (1, 10) "downloading")
      installLegs (
        if source = PIVOT_LANGUAGE || target = PIVOT_LANGUAGE || !allow_pivot then
          [(source, target)]
        else [(source, PIVOT_LANGUAGE), (PIVOT_LANGUAGE, target)])

/-- Install if missing, then load, so the first Translate is fast. -/
def prepare_pair (source target : String) (allow_pivot : Bool) : Async Results := do
  ask .start
  installMissing source target allow_pivot
  ask (.emit_progress (7, 10) "loading")
  let entry ← ensure_loaded source target allow_pivot
  let pivot ← ask (.pivot entry)
  let stores ← ask .stores
  ask (.drop entry)
  let version : Results := match stores.resolve source target with
    | none => []
    | some installed => [("version", .str installed.version.raw)]
  pure (pivotResult pivot ++ version)

/-- The future of `install_pair`. -/
def installPair (source target : String) : Async Results := do
  ask .start
  let installed ← install_pair source target
  let architecture : Results := match installed.manifest.architecture with
    | none => []
    | some architecture => [("architecture", .str architecture)]
  pure ([("version", .str installed.version.raw)] ++ architecture)

/-- The future of `check_for_updates`. -/
def checkForUpdates : Async Results := do
  ask .start
  let updates ← (ask .check_for_updates >>= ofResult)
  ask .refresh
  pure [("updates", .strs (updates.map fun u =>
    u.source ++ "-" ++ u.target ++ " " ++ u.installed ++ " -> " ++ u.available))]

/-! ## The handlers -/

/-- The calls clients make. `quick` stands for the methods that answer
without a request object: ListLanguagePairs, DetectLanguage, RemovePair,
GetConfig, SetConfig and GetStatus; `cancel` is the method of the request
object at a path. -/
inductive Method where
  | translate (route : service.Route) (segments : List String) (want_sentences : Bool)
  | translate_fd (route : service.Route)
  | prepare_pair (source target : String) (allow_pivot : Bool)
  | install_pair (source target : String)
  | check_for_updates
  | quick
  | version
  | cancel (path : String)
deriving DecidableEq, Repr

/-- The handler begins with `activity.touch()`. -/
def Method.touches : Method → Bool
  | .translate _ _ _ | .translate_fd _ | .prepare_pair _ _ _ | .install_pair _ _ | .quick => true
  | .check_for_updates | .version | .cancel _ => false

/-- `dragoman_client::request_path`, for the progress signals. -/
def progress_path (sender token : String) : Except Error String :=
  match request_path sender token with
  | .error e => .error (.invalidArgument e)
  | .ok path => .ok path

/-- What the handler checks before `spawn_request`. -/
def Method.check (host : Host) (config : Config) (disk : Disk) (sender token : String) :
    Method → Except Error Unit
  | .translate route segments _ => do
      check_langs host route.source route.target
      if segments.isEmpty then
        .error (.invalidArgument "segments is empty")
      else if segments.length > MAX_SEGMENTS then
        .error (.limitExceeded ("at most " ++ toString MAX_SEGMENTS ++ " segments per request"))
      else if (segments.map String.utf8ByteSize).sum > MAX_TOTAL_BYTES then
        .error (.limitExceeded ("at most " ++ toString MAX_TOTAL_BYTES
          ++ " bytes per request; send documents through TranslateFd"))
      else
        -- fail fast before creating a request object
        let _ ← plan_route disk route.source route.target route.allow_pivot
  | .translate_fd route => do
      check_langs host route.source route.target
      let _ ← plan_route disk route.source route.target route.allow_pivot
      let _ ← progress_path sender token
  | .prepare_pair source target _ => do
      check_langs host source target
      let _ ← progress_path sender token
  | .install_pair source target => do
      check_langs host source target
      if config.network then .ok ()
      else .error (.networkDisabled
        "downloads and update checks are disabled by configuration")
  | .check_for_updates =>
      if config.network then .ok ()
      else .error (.networkDisabled
        "downloads and update checks are disabled by configuration")
  | .quick | .version | .cancel _ => .ok ()

/-- The future of the request, if the method makes one. -/
def Method.future (host : Host) : Method → Option (Async Results)
  | .translate route segments want_sentences =>
      some (Dragomand.translate route segments want_sentences)
  | .translate_fd route => some (Dragomand.translate_fd host route)
  | .prepare_pair source target allow_pivot =>
      some (Dragomand.prepare_pair source target allow_pivot)
  | .install_pair source target => some (installPair source target)
  | .check_for_updates => some checkForUpdates
  | .quick | .version | .cancel _ => none

end Dragomand
