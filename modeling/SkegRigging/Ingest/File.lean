import Mathlib.Data.List.Infix
import SkegRigging.Ingest.Chunk
import SkegRigging.Library.Allocation
import SkegRigging.Rigging.Contract

/-!
# Ingesting one file

`ingest_file` of `lib.rs`: a file is read, chunked, and each chunk is embedded and inserted under
the next record id, until the first failure. The embedder and the writer are state machines, so that
a call may succeed at one time and fail at another.

A writer is observed through `recorded`, which beside the writer keeps the list of the calls made on
it. `ingestChunks_inserted` says which inserts one file makes: their ids are consecutive from
`next_id`, and `next_id` counts the accepted ones.
-/

set_option autoImplicit false

namespace SkegRigging.Ingest

open Allocation

/-! ## Options and statistics -/

/-- Knobs of an ingest run. An empty `exts` accepts every extension. -/
structure IngestOptions where
  exts : List String
  excludes : List String
  shareable : Bool
  tags : List String
  startId : UInt64
  deriving DecidableEq, Repr

/-- `IngestOptions::default`. -/
def IngestOptions.default : IngestOptions :=
  { exts := []
    excludes := ["/.git/", "/target/", "/node_modules/", "/.venv/", "/dist/"]
    shareable := false
    tags := []
    startId := 0 }

/-- What an ingest run produced. -/
structure IngestStats where
  files : Nat
  chunks : Nat
  words : Nat
  nextId : UInt64
  deriving DecidableEq, Repr

/-- `IngestStats { next_id, ..Default::default() }`. -/
def IngestStats.startingAt (nextId : UInt64) : IngestStats := ⟨0, 0, 0, nextId⟩

/-! ## Paths -/

/-- `str::contains`. -/
def contains (s pattern : String) : Bool := decide (pattern.toList <:+: s.toList)

/-- The path of `file` relative to `root`, or its name where `root` is not a prefix. -/
def relpath (root file : PathBuf) : String :=
  match file.stripPrefix root with
  | some rel => rel.display
  | none => file.fileName.getD file.display

/-- Whether `file` should be ingested. -/
def accepts (file : PathBuf) (opts : IngestOptions) : Bool :=
  -- the exclusions win over the extensions
  if opts.excludes.any (contains file.display) then false
  else if opts.exts.isEmpty then true
  else
    match file.extension with
    | some ext => opts.exts.any (· == ext)
    | none => false

/-! ## The pipeline -/

/-- An embedding backend with state `M`. An error carries its text. -/
structure Embed (M F : Type) where
  dim : M → UInt32
  passage : M → Text → M × Except String (List F)

/-- How the ingest of a file fails. -/
inductive IngestError (Err : Type)
  | read (file : PathBuf) (error : IoError)
  | passage (message : String)
  | insert (recordId : RecordId) (error : Err)
  deriving Repr

/-- The text of the outermost error. -/
def IngestError.display {Err : Type} [ToString Err] : IngestError Err → String
  | .read file _ => "read " ++ file.display
  | .passage message => message
  | .insert id error => "insert record " ++ toString id.val ++ ": " ++ toString error

/-- What `ingest_file` works on: the embedder, the writer and the statistics. -/
structure Pipeline (M W : Type) where
  embedder : M
  writer : W
  stats : IngestStats

/-- The UTF-8 bytes of a text. -/
def utf8 (text : Text) : Bytes := text.flatMap String.utf8EncodeChar

/-- The provenance tag of a chunk. -/
def srcTag (rel : String) (c : Chunk) : String :=
  "src:" ++ rel ++ ":" ++ toString c.lineLo ++ "-" ++ toString c.lineHi

/-- The statistics after one more chunk. -/
def IngestStats.addChunk (stats : IngestStats) (c : Chunk) : IngestStats :=
  { stats with
    nextId := stats.nextId + 1
    chunks := stats.chunks + 1
    words := stats.words + wordCount c.text }

section

variable {M W F Err : Type} (E : Embed M F) (T : TenantWrite W F Err) (opts : IngestOptions)
  (rel : String)

/-- One iteration of the loop in `ingest_file`: embed the chunk and insert it. -/
def ingestChunk (p : Pipeline M W) (c : Chunk) : Pipeline M W × Except (IngestError Err) Unit :=
  match E.passage p.embedder c.text with
  -- the writer was not called and `next_id` stays
  | (embedder, .error message) => ({ p with embedder }, .error (.passage message))
  | (embedder, .ok v) =>
    match T.insert p.writer ⟨p.stats.nextId⟩ v opts.shareable (opts.tags ++ [srcTag rel c])
      (utf8 c.text) with
    | (writer, .error error) =>
      -- a refused insert leaves `next_id` as well, whatever the writer did
      ({ p with embedder, writer }, .error (.insert ⟨p.stats.nextId⟩ error))
    | (writer, .ok ()) => (⟨embedder, writer, p.stats.addChunk c⟩, .ok ())

/-- The loop: it stops at the first chunk that fails. -/
def ingestChunks (p : Pipeline M W) :
    List Chunk → Pipeline M W × Except (IngestError Err) Unit
  | [] => (p, .ok ())
  | c :: cs =>
    match ingestChunk E T opts rel p c with
    -- `?`: the chunks inserted before this one stay in the writer
    | (p, .error error) => (p, .error error)
    | (p, .ok ()) => ingestChunks p cs

/-- The chunks of a file with the given text. -/
def chunksOf (file : PathBuf) (text : Text) : List Chunk :=
  chunk text (.forExt (file.extension.getD ""))

/-- Ingest one file. `content` is what reading it as text gives. -/
def ingestFile (root file : PathBuf) (content : Except IoError Text) (p : Pipeline M W) :
    Pipeline M W × Except (IngestError Err) Unit :=
  match content with
  | .error error => (p, .error (.read file error))
  | .ok text => ingestChunks E T opts (relpath root file) p (chunksOf file text)

/-- What one iteration does: the embedder fails, or the writer refuses the chunk, or the chunk is
taken. -/
theorem ingestChunk_ends {p q : Pipeline M W} {c : Chunk} {r : Except (IngestError Err) Unit}
    (h : ingestChunk E T opts rel p c = (q, r)) :
    (∃ m message, E.passage p.embedder c.text = (m, .error message) ∧
      q = { p with embedder := m } ∧ r = .error (.passage message)) ∨
    (∃ m v w e, E.passage p.embedder c.text = (m, .ok v) ∧
      T.insert p.writer ⟨p.stats.nextId⟩ v opts.shareable (opts.tags ++ [srcTag rel c])
        (utf8 c.text) = (w, .error e) ∧
      q = ⟨m, w, p.stats⟩ ∧ r = .error (.insert ⟨p.stats.nextId⟩ e)) ∨
    (∃ m v w, E.passage p.embedder c.text = (m, .ok v) ∧
      T.insert p.writer ⟨p.stats.nextId⟩ v opts.shareable (opts.tags ++ [srcTag rel c])
        (utf8 c.text) = (w, .ok ()) ∧
      q = ⟨m, w, p.stats.addChunk c⟩ ∧ r = .ok ()) := by
  unfold ingestChunk at h
  split at h
  · rename_i m message hpassage
    simp only [Prod.mk.injEq] at h
    exact Or.inl ⟨m, message, hpassage, h.1.symm, h.2.symm⟩
  · rename_i m v hpassage
    split at h
    · rename_i w e hinsert
      simp only [Prod.mk.injEq] at h
      exact Or.inr (Or.inl ⟨m, v, w, e, hpassage, hinsert, h.1.symm, h.2.symm⟩)
    · rename_i w hinsert
      simp only [Prod.mk.injEq] at h
      exact Or.inr (Or.inr ⟨m, v, w, hpassage, hinsert, h.1.symm, h.2.symm⟩)

/-- The loop stops at its first chunk, or takes it and goes on. -/
theorem ingestChunks_cons {p q : Pipeline M W} {c : Chunk} {cs : List Chunk}
    {r : Except (IngestError Err) Unit} (h : ingestChunks E T opts rel p (c :: cs) = (q, r)) :
    (∃ e, ingestChunk E T opts rel p c = (q, .error e) ∧ r = .error e) ∨
      ∃ p₁, ingestChunk E T opts rel p c = (p₁, .ok ()) ∧
        ingestChunks E T opts rel p₁ cs = (q, r) := by
  unfold ingestChunks at h
  split at h
  · rename_i p₁ e hp₁
    simp only [Prod.mk.injEq] at h
    obtain ⟨rfl, rfl⟩ := h
    exact Or.inl ⟨e, hp₁, rfl⟩
  · rename_i p₁ hp₁
    exact Or.inr ⟨p₁, hp₁, h⟩

/-- The number of leading chunks that are embedded and inserted. -/
def taken (p : Pipeline M W) : List Chunk → Nat
  | [] => 0
  | c :: cs =>
    match ingestChunk E T opts rel p c with
    | (_, .error _) => 0
    | (p, .ok ()) => taken p cs + 1

theorem taken_le (p : Pipeline M W) (cs : List Chunk) : taken E T opts rel p cs ≤ cs.length := by
  induction cs generalizing p with
  | nil => exact Nat.le_refl 0
  | cons c cs ih =>
    rw [taken]
    rcases ingestChunk E T opts rel p c with ⟨p', _ | ⟨⟩⟩
    · exact Nat.zero_le _
    · exact Nat.succ_le_succ (ih p')

/-- The loop succeeds exactly when every chunk is taken, and then it has counted every chunk. -/
theorem ingestChunks_taken {p q : Pipeline M W} {cs : List Chunk}
    {r : Except (IngestError Err) Unit} (h : ingestChunks E T opts rel p cs = (q, r)) :
    (r = .ok () ↔ taken E T opts rel p cs = cs.length) ∧
      (r = .ok () → q.stats = cs.foldl IngestStats.addChunk p.stats) := by
  induction cs generalizing p with
  | nil =>
    simp only [ingestChunks, Prod.mk.injEq] at h
    obtain ⟨rfl, rfl⟩ := h
    exact ⟨iff_of_true rfl rfl, fun _ => rfl⟩
  | cons c cs ih =>
    rcases ingestChunks_cons E T opts rel h with ⟨e, hc, rfl⟩ | ⟨p₁, hc, hrest⟩
    · have htaken : taken E T opts rel p (c :: cs) = 0 := by rw [taken, hc]
      refine ⟨iff_of_false (by simp) ?_, fun hr => by cases hr⟩
      rw [htaken, List.length_cons]
      omega
    · obtain ⟨hdone, hstats⟩ := ih hrest
      have htaken : taken E T opts rel p (c :: cs) = taken E T opts rel p₁ cs + 1 := by
        rw [taken, hc]
      have hp₁ : p₁.stats = p.stats.addChunk c := by
        rcases ingestChunk_ends E T opts rel hc with ⟨_, _, -, -, hr⟩ | ⟨_, _, _, _, -, -, -, hr⟩ |
          ⟨_, _, _, -, -, rfl, -⟩
        · cases hr
        · cases hr
        · rfl
      constructor
      · rw [hdone, htaken, List.length_cons]
        omega
      · intro hr
        rw [hstats hr, hp₁, List.foldl_cons]

/-- Whether the first chunk gets as far as the call of `insert`. -/
def reachesInsert (embedder : M) : List Chunk → Bool
  | [] => false
  | c :: _ => (E.passage embedder c.text).2.isOk

end

/-! ## The calls on a writer -/

/-- One call of `TenantWrite::insert`, and whether the writer accepted it. -/
structure InsertCall (F : Type) where
  recordId : RecordId
  embedding : List F
  shareable : Bool
  tags : List String
  payload : Bytes
  accepted : Bool
  deriving DecidableEq, Repr

inductive Call (F : Type)
  | insert (call : InsertCall F)
  | flush (done : Bool)
  deriving DecidableEq, Repr

/-- The id of an insert. -/
def InsertCall.key {F : Type} (c : InsertCall F) : UInt64 := c.recordId.val

/-- The insert calls of a record of calls. -/
def insertions {F : Type} (calls : List (Call F)) : List (InsertCall F) :=
  calls.filterMap fun
    | .insert call => some call
    | .flush _ => none

@[simp] theorem insertions_append {F : Type} (calls calls' : List (Call F)) :
    insertions (calls ++ calls') = insertions calls ++ insertions calls' :=
  List.filterMap_append

@[simp] theorem insertions_insert {F : Type} (call : InsertCall F) :
    insertions [Call.insert call] = [call] := rfl

@[simp] theorem insertions_flush {F : Type} (done : Bool) :
    insertions [(Call.flush done : Call F)] = [] := rfl

section

variable {M W F Err : Type}

/-- The writer `T` together with the calls made on it. -/
def recorded (T : TenantWrite W F Err) : TenantWrite (W × List (Call F)) F Err where
  insert s recordId embedding shareable tags payload :=
    let (writer, result) := T.insert s.1 recordId embedding shareable tags payload
    ((writer, s.2 ++ [.insert ⟨recordId, embedding, shareable, tags, payload, result.isOk⟩]),
      result)
  flush s :=
    let (writer, result) := T.flush s.1
    ((writer, s.2 ++ [.flush result.isOk]), result)
  embeddingDim s := T.embeddingDim s.1

theorem recorded_insert (T : TenantWrite W F Err) (s : W × List (Call F)) (recordId : RecordId)
    (embedding : List F) (shareable : Bool) (tags : List String) (payload : Bytes) :
    (recorded T).insert s recordId embedding shareable tags payload =
      let r := T.insert s.1 recordId embedding shareable tags payload
      ((r.1, s.2 ++ [.insert ⟨recordId, embedding, shareable, tags, payload, r.2.isOk⟩]), r.2) :=
  rfl

theorem recorded_insert_ends {T : TenantWrite W F Err} {s s' : W × List (Call F)}
    {recordId : RecordId} {embedding : List F} {shareable : Bool} {tags : List String}
    {payload : Bytes} {r : Except Err Unit}
    (h : (recorded T).insert s recordId embedding shareable tags payload = (s', r)) :
    T.insert s.1 recordId embedding shareable tags payload = (s'.1, r) ∧
      s'.2 = s.2 ++ [.insert ⟨recordId, embedding, shareable, tags, payload, r.isOk⟩] := by
  rw [recorded_insert] at h
  simp only [Prod.mk.injEq] at h
  obtain ⟨rfl, rfl⟩ := h
  exact ⟨rfl, rfl⟩

theorem insertions_recorded_flush {T : TenantWrite W F Err} (s : W × List (Call F)) :
    insertions ((recorded T).flush s).1.2 = insertions s.2 := by
  change insertions (s.2 ++ [_]) = _
  rw [insertions_append, insertions_flush, List.append_nil]

/-- The pipeline without the record of the calls. -/
def Pipeline.forget (p : Pipeline M (W × List (Call F))) : Pipeline M W :=
  ⟨p.embedder, p.writer.1, p.stats⟩

variable (E : Embed M F) (T : TenantWrite W F Err) (opts : IngestOptions) (rel : String)

theorem ingestChunk_recorded (p : Pipeline M (W × List (Call F))) (c : Chunk) :
    ingestChunk E T opts rel p.forget c =
      ((ingestChunk E (recorded T) opts rel p c).1.forget,
        (ingestChunk E (recorded T) opts rel p c).2) := by
  simp only [ingestChunk, recorded_insert, Pipeline.forget]
  split
  · rfl
  · split <;> simp_all

/-- Recording the calls changes nothing else. -/
theorem ingestChunks_recorded (p : Pipeline M (W × List (Call F))) (cs : List Chunk) :
    ingestChunks E T opts rel p.forget cs =
      ((ingestChunks E (recorded T) opts rel p cs).1.forget,
        (ingestChunks E (recorded T) opts rel p cs).2) := by
  induction cs generalizing p with
  | nil => rfl
  | cons c cs ih =>
    rw [ingestChunks, ingestChunk_recorded, ingestChunks]
    rcases ingestChunk E (recorded T) opts rel p c with ⟨p', _ | ⟨⟩⟩
    · rfl
    · exact ih p'

/-! ## The inserts of one file -/

/-- What one iteration does: it stops before the call of `insert`, or the writer refuses the chunk,
or it takes the chunk. -/
theorem ingestChunk_cases (p : Pipeline M (W × List (Call F))) (c : Chunk) (cs : List Chunk) :
    let r := ingestChunk E (recorded T) opts rel p c
    (reachesInsert E p.embedder (c :: cs) = false ∧ (∃ error, r.2 = .error error) ∧
      r.1.stats = p.stats ∧ r.1.writer.2 = p.writer.2) ∨
    (reachesInsert E p.embedder (c :: cs) = true ∧ ∃ call : InsertCall F,
      call.key = p.stats.nextId ∧ r.1.writer.2 = p.writer.2 ++ [.insert call] ∧
      ((call.accepted = false ∧ (∃ error, r.2 = .error error) ∧ r.1.stats = p.stats) ∨
        (call.accepted = true ∧ r.2 = .ok () ∧ r.1.stats = p.stats.addChunk c))) := by
  intro r
  simp only [r, ingestChunk, recorded_insert, reachesInsert]
  rcases hpassage : E.passage p.embedder c.text with ⟨embedder, message | v⟩
  · exact Or.inl ⟨rfl, ⟨_, rfl⟩, rfl, rfl⟩
  · refine Or.inr ⟨rfl, ?_⟩
    dsimp only
    rcases hinsert : T.insert p.writer.1 ⟨p.stats.nextId⟩ v opts.shareable
      (opts.tags ++ [srcTag rel c]) (utf8 c.text) with ⟨writer, error | ⟨⟩⟩
    · exact ⟨_, rfl, rfl, Or.inl ⟨rfl, ⟨_, rfl⟩, rfl⟩⟩
    · exact ⟨_, rfl, rfl, Or.inr ⟨rfl, rfl, rfl⟩⟩

/-- What the loop adds to the calls of a recorded writer: the inserts `new`, with consecutive ids
from `next_id`. -/
structure Inserted (p : Pipeline M (W × List (Call F))) (cs : List Chunk)
    (r : Pipeline M (W × List (Call F)) × Except (IngestError Err) Unit)
    (new : List (InsertCall F)) : Prop where
  calls : insertions r.1.writer.2 = insertions p.writer.2 ++ new
  consecutive : Consecutive InsertCall.key InsertCall.accepted p.stats.nextId new
  nextId : r.1.stats.nextId = advance InsertCall.accepted p.stats.nextId new
  count : new.countP InsertCall.accepted = taken E (recorded T) opts rel p cs
  done : r.2.isOk = true ↔ taken E (recorded T) opts rel p cs = cs.length
  reached : new ≠ [] ↔ reachesInsert E p.embedder cs = true

theorem ingestChunks_inserted (p : Pipeline M (W × List (Call F))) (cs : List Chunk) :
    ∃ new, Inserted E T opts rel p cs (ingestChunks E (recorded T) opts rel p cs) new := by
  induction cs generalizing p with
  | nil =>
    refine ⟨[], ?_, trivial, ?_, rfl, ?_, ?_⟩ <;>
      simp [ingestChunks, taken, reachesInsert, Except.isOk, Except.toBool]
  | cons c cs ih =>
    have hcases := ingestChunk_cases E T opts rel p c cs
    rcases hr : ingestChunk E (recorded T) opts rel p c with ⟨p', error | ⟨⟩⟩
    · have hrun : ingestChunks E (recorded T) opts rel p (c :: cs) = (p', .error error) := by
        rw [ingestChunks, hr]
      have htaken : taken E (recorded T) opts rel p (c :: cs) = 0 := by rw [taken, hr]
      have hfailed : (Except.error error : Except (IngestError Err) Unit).isOk = true ↔
          taken E (recorded T) opts rel p (c :: cs) = (c :: cs).length := by
        rw [htaken]
        exact iff_of_false Bool.false_ne_true (Nat.succ_ne_zero _).symm
      rw [hr] at hcases
      rw [hrun]
      rcases hcases with ⟨hstop, -, hstats, hwriter⟩ |
        ⟨hreach, call, hkey, hwriter, ⟨hrefused, -, hstats⟩ | ⟨-, hok, -⟩⟩
      · -- the embedder failed: no call was made
        refine ⟨[], ?_, trivial, ?_, htaken.symm, hfailed, ?_⟩
        · rw [hwriter, List.append_nil]
        · rw [hstats, advance_nil]
        · rw [hstop]
          exact iff_of_false (fun h => h rfl) Bool.false_ne_true
      · -- the writer refused: the call is recorded with the id that stays free
        refine ⟨[call], ?_, ⟨hkey, trivial⟩, ?_, ?_, hfailed, ?_⟩
        · rw [hwriter, insertions_append, insertions_insert]
        · rw [hstats, advance_of_none _ (by simp [hrefused])]
        · rw [htaken]
          simp [hrefused]
        · rw [hreach]
          exact iff_of_true (List.cons_ne_nil _ _) rfl
      · cases hok
    · have hrun : ingestChunks E (recorded T) opts rel p (c :: cs) =
          ingestChunks E (recorded T) opts rel p' cs := by
        rw [ingestChunks, hr]
      have htaken : taken E (recorded T) opts rel p (c :: cs) =
          taken E (recorded T) opts rel p' cs + 1 := by
        rw [taken, hr]
      rw [hr] at hcases
      rw [hrun]
      rcases hcases with ⟨-, ⟨error, herror⟩, -⟩ |
        ⟨hreach, call, hkey, hwriter, ⟨-, ⟨error, herror⟩, -⟩ | ⟨haccepted, -, hstats⟩⟩
      · cases herror
      · cases herror
      -- the chunk was taken: the rest continues from the next id
      · obtain ⟨new, hnew⟩ := ih p'
        have hnext : p'.stats.nextId = p.stats.nextId + 1 := by rw [hstats, IngestStats.addChunk]
        refine ⟨call :: new, ?_, ⟨hkey, ?_⟩, ?_, ?_, ?_, ?_⟩
        · rw [hnew.calls, hwriter, insertions_append, insertions_insert, List.append_assoc,
            List.singleton_append]
        · rw [haccepted, if_pos rfl, ← hnext]
          exact hnew.consecutive
        · rw [hnew.nextId, advance_cons, haccepted, if_pos rfl, hnext]
        · rw [List.countP_cons, haccepted, if_pos rfl, hnew.count, htaken]
        · rw [hnew.done, htaken, List.length_cons, Nat.add_right_cancel_iff]
        · exact ⟨fun _ => hreach, fun _ => List.cons_ne_nil _ _⟩

end

end SkegRigging.Ingest
