import SkegRigging.Ingest.File
import SkegRigging.Library.Runs

/-!
# Watch mode

The loop of `watch_tree` over the deliveries of the file-system watcher. A delivery is a watcher
error or an event with its paths; for each path the loop observes whether it is a regular file, the
time, and the content. Times are in nanoseconds; `Instant::duration_since` gives zero for a later
instant, as subtraction of naturals does.

The loop is a run of `visit` over the paths of the `Create` and `Modify` events (`watchTree_eq`).
What one visit does is stated once, in `visit_skipped` and `visit_attempted`.
-/

set_option autoImplicit false

namespace SkegRigging.Ingest

open Runs Allocation

/-- `notify::EventKind`, without the details of a kind. -/
inductive FsEventKind
  | any
  | access
  | create
  | modify
  | remove
  | other
  deriving DecidableEq, Repr

/-- One path of an event: when the event happened, and what the loop observes when it gets to the
path. -/
structure Visit where
  path : PathBuf
  happened : Nat
  now : Nat
  isFile : Bool
  content : Except IoError Text

structure FsEvent where
  kind : FsEventKind
  paths : List Visit

/-- A delivery of the watcher's channel: an event, or an error with its text. -/
abbrev Delivery := Except String FsEvent

/-- The variables of the loop. `batches` are the statistics given to `on_batch`. -/
structure Watch (M W : Type) where
  lastSeen : PathBuf → Option Nat
  opts : IngestOptions
  nextId : UInt64
  embedder : M
  writer : W
  batches : List IngestStats

/-- 800 ms. -/
def debounce : Nat := 800 * 10 ^ 6

/-- Whether the path is a regular file to be ingested. -/
def Visit.accepted (v : Visit) (opts : IngestOptions) : Bool := v.isFile && accepts v.path opts

/-- The chunks of the observed content. -/
def Visit.chunks (v : Visit) : List Chunk :=
  match v.content with
  | .error _ => []
  | .ok text => chunksOf v.path text

namespace Watch

variable {M W F Err : Type}

/-- The loop's variables before the first delivery. -/
def start (opts : IngestOptions) (embedder : M) (writer : W) : Watch M W :=
  { lastSeen := fun _ => none, opts, nextId := opts.startId, embedder, writer, batches := [] }

/-- Whether the path was seen less than the debounce time ago. -/
def debounced (s : Watch M W) (v : Visit) : Bool :=
  match s.lastSeen v.path with
  | some prev => decide (v.now - prev < debounce)
  | none => false

/-- Whether the loop calls `ingest_file` on the path. -/
def attempts (s : Watch M W) (v : Visit) : Bool := v.accepted s.opts && !s.debounced v

/-- What `ingest_file` starts from. -/
def pipeline (s : Watch M W) : Pipeline M W := ⟨s.embedder, s.writer, .startingAt s.nextId⟩

section

variable (E : Embed M F) (T : TenantWrite W F Err) (root : PathBuf)

/-- `ingest_file` as the loop calls it. -/
def ingest (s : Watch M W) (v : Visit) : Pipeline M W × Except (IngestError Err) Unit :=
  ingestFile E T { s.opts with startId := s.nextId } root v.path v.content s.pipeline

/-- The loop body for one path. `next_id` is copied back only when the whole file went through. -/
def visit (s : Watch M W) (v : Visit) : Watch M W :=
  if !v.accepted s.opts then s
  else if s.debounced v then s
  else
    -- `last_seen.insert` comes before the attempt, and nothing takes it back
    let lastSeen := Function.update s.lastSeen v.path (some v.now)
    let opts := { s.opts with startId := s.nextId }
    match s.ingest E T root v with
    -- `continue`: `next_id` keeps its value from before the file
    | (p, .error _) => { s with lastSeen, opts, embedder := p.embedder, writer := p.writer }
    | (p, .ok ()) =>
      let stats := { p.stats with files := 1 }
      { lastSeen
        opts
        nextId := stats.nextId
        embedder := p.embedder
        -- the result of `flush` is dropped
        writer := (T.flush p.writer).1
        batches := s.batches ++ [stats] }

/-- The loop body for one delivery. -/
def handle (s : Watch M W) : Delivery → Watch M W
  -- an error of the watcher is skipped
  | .error _ => s
  | .ok event =>
    match event.kind with
    | .create | .modify => event.paths.foldl (visit E T root) s
    | _ => s

/-- The loop. -/
def watchTree (s : Watch M W) (deliveries : List Delivery) : Watch M W :=
  deliveries.foldl (handle E T root) s

end

/-- The paths the loop goes over for a delivery. -/
def visits : Delivery → List Visit
  | .error _ => []
  | .ok event =>
    match event.kind with
    | .create | .modify => event.paths
    | _ => []

variable {E : Embed M F} {T : TenantWrite W F Err} {root : PathBuf}

theorem handle_eq (s : Watch M W) (d : Delivery) :
    s.handle E T root d = run (visit E T root) s (visits d) := by
  cases d with
  | error => rfl
  | ok event => rcases event with ⟨_ | _, _⟩ <;> rfl

/-- The loop over the deliveries is a run over the paths of their `Create` and `Modify` events. -/
theorem watchTree_eq (s : Watch M W) (ds : List Delivery) :
    s.watchTree E T root ds = run (visit E T root) s (ds.flatMap visits) := by
  induction ds generalizing s with
  | nil => rfl
  | cons d ds ih =>
    rw [List.flatMap_cons, run_append, ← handle_eq]
    exact ih _

/-! ## One visit -/

theorem ingest_unreadable {s : Watch M W} {v : Visit} {error : IoError}
    (h : v.content = .error error) :
    s.ingest E T root v = (s.pipeline, .error (.read v.path error)) := by
  rw [ingest, h]
  rfl

theorem ingest_readable {s : Watch M W} {v : Visit} {text : Text} (h : v.content = .ok text) :
    s.ingest E T root v =
      ingestChunks E T { s.opts with startId := s.nextId } (relpath root v.path) s.pipeline
        v.chunks := by
  rw [ingest, Visit.chunks, h]
  rfl

theorem visit_skipped {s : Watch M W} {v : Visit} (h : s.attempts v = false) :
    s.visit E T root v = s := by
  rw [attempts, Bool.and_eq_false_iff, Bool.not_eq_false'] at h
  rw [visit]
  rcases h with hrejected | hdebounced
  · rw [hrejected]
    rfl
  · rw [hdebounced]
    simp

/-- An attempt, with the branch taken by the result of `ingest_file`. -/
theorem visit_attempted {s : Watch M W} {v : Visit} (h : s.attempts v = true) :
    s.visit E T root v =
      match s.ingest E T root v with
      | (p, .error _) =>
        { s with
          lastSeen := Function.update s.lastSeen v.path (some v.now)
          opts := { s.opts with startId := s.nextId }
          embedder := p.embedder
          writer := p.writer }
      | (p, .ok ()) =>
        { lastSeen := Function.update s.lastSeen v.path (some v.now)
          opts := { s.opts with startId := s.nextId }
          nextId := p.stats.nextId
          embedder := p.embedder
          writer := (T.flush p.writer).1
          batches := s.batches ++ [{ p.stats with files := 1 }] } := by
  rw [attempts, Bool.and_eq_true, Bool.not_eq_true'] at h
  rw [visit, h.1, h.2]
  rfl

/-- The time of an attempt is recorded before the attempt and stays, whatever its outcome. -/
theorem visit_lastSeen {s : Watch M W} {v : Visit} (h : s.attempts v = true) :
    (s.visit E T root v).lastSeen = Function.update s.lastSeen v.path (some v.now) := by
  rw [visit_attempted h]
  rcases s.ingest E T root v with ⟨p, _ | _⟩ <;> rfl

/-- Which files are ingested does not change during a run. -/
theorem visit_accepted (s : Watch M W) (v u : Visit) :
    u.accepted (s.visit E T root v).opts = u.accepted s.opts := by
  cases h : s.attempts v with
  | false => rw [visit_skipped h]
  | true =>
    rw [visit_attempted h]
    rcases s.ingest E T root v with ⟨p, _ | _⟩ <;> rfl

/-! ## Recording the calls on the writer -/

/-- The loop's variables without the record of the calls. -/
def forget (s : Watch M (W × List (Call F))) : Watch M W := { s with writer := s.writer.1 }

theorem ingest_recorded (s : Watch M (W × List (Call F))) (v : Visit) :
    s.forget.ingest E T root v =
      ((s.ingest E (recorded T) root v).1.forget, (s.ingest E (recorded T) root v).2) := by
  -- an unreadable file never reaches the writer
  cases hcontent : v.content with
  | error error =>
    rw [ingest_unreadable hcontent, ingest_unreadable (s := s) hcontent]
    rfl
  | ok text =>
    rw [ingest_readable hcontent, ingest_readable (s := s) hcontent]
    exact ingestChunks_recorded E T _ _ s.pipeline v.chunks

theorem visit_recorded (s : Watch M (W × List (Call F))) (v : Visit) :
    s.forget.visit E T root v = (s.visit E (recorded T) root v).forget := by
  cases h : s.attempts v with
  | false => rw [visit_skipped h, visit_skipped (s := s.forget) h]
  | true =>
    rw [visit_attempted h, visit_attempted (s := s.forget) h, ingest_recorded]
    rcases s.ingest E (recorded T) root v with ⟨p, _ | ⟨⟩⟩ <;> rfl

/-- A recorded run is a run on the writer itself. -/
theorem watchTree_recorded (s : Watch M (W × List (Call F))) (ds : List Delivery) :
    s.forget.watchTree E T root ds = (s.watchTree E (recorded T) root ds).forget := by
  rw [watchTree_eq, watchTree_eq]
  generalize ds.flatMap visits = vs
  induction vs generalizing s with
  | nil => rfl
  | cons v vs ih => rw [run_cons, run_cons, visit_recorded, ih]

end Watch

end SkegRigging.Ingest
