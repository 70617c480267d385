import SkegRigging.Adapter.Engine
import SkegRigging.Adapter.Sidecar

/-!
# Tenant: the adapter over the engine and the sidecar

`Tenant` of `tenant.rs`. A tenant directory holds `meta.json` and the engine's files (`Dir`); every
operation that may write takes the directory and returns it. The bodies of `insert` and `delete` are
cut where the source drops the inner lock: `insertState` and `deleteState` change the state, and
`emit` broadcasts afterwards under the other lock.

`open` has three branches, chosen by which files exist: `reopen` reads the sidecar, `adopt` starts
an empty sidecar over an index that was never flushed, and `create` makes both.
-/

set_option autoImplicit false

namespace SkegRigging

open DiskVamanaIndex

variable {F S : Type}

/-- The files of a tenant directory: the sidecar's `meta.json` and the engine's own files. -/
structure Dir (E : DiskVamanaIndex F S) where
  metaJson : Option Bytes
  engine : E.Files

/-- A directory without files. -/
def Dir.fresh {E : DiskVamanaIndex F S} : Dir E := { metaJson := none, engine := fun _ => none }

/-- The state behind the inner lock. -/
structure Inner (E : DiskVamanaIndex F S) where
  index : E.Handle
  sidecar : MetadataSidecar

/-- An open tenant. -/
structure Tenant (E : DiskVamanaIndex F S) where
  inner : Inner E
  tenantId : TenantId
  embeddingDim : UInt32
  dir : PathBuf
  readOnly : Bool
  subscribers : List Channel

/-- What the environment decides during one open: errors of the directory creation and of the
sidecar read, the engine's part, and the outcome of the sidecar write. -/
structure OpenEnv (E : DiskVamanaIndex F S) where
  createDirAll : Option IoError
  readMeta : Option IoError
  engine : E.Env
  writeMeta : WriteOutcome

/-- Default `L_search` for vamana queries. -/
def defaultLSearch : Nat := 100

namespace Tenant

variable {E : DiskVamanaIndex F S}

/-! ## Opening -/

section Open

variable (J : SerdeJson) (env : OpenEnv E) (dir : PathBuf) (files : Dir E)

/-- The read-write handle that `open` returns. -/
def handle (index : E.Handle) (sidecar : MetadataSidecar) (tenantId : TenantId)
    (embeddingDim : UInt32) : Tenant E :=
  { inner := { index, sidecar }, tenantId, embeddingDim, dir, readOnly := false, subscribers := [] }

/-- `DiskVamanaIndex::open` with the dimension check that follows it in every opening path. -/
def openEngine (embeddingDim : UInt32) : Dir E × Except TenantError E.Handle :=
  -- opening may write to the engine's files, so they come back with either result
  match E.openIndex env.engine files.engine with
  | (engine, .error e) => ({ files with engine }, .error (.io e))
  | (engine, .ok idx) =>
    -- the check follows the open: by now the engine may have written
    if asU32 (E.dim idx) ≠ embeddingDim then
      ({ files with engine }, .error (.dimMismatch (asU32 (E.dim idx)) embeddingDim))
    else ({ files with engine }, .ok idx)

/-- Write an empty sidecar next to an open index and return the handle. -/
def startEmpty (tenantId : TenantId) (embeddingDim : UInt32) (idx : E.Handle) (files : Dir E) :
    Dir E × Except TenantError (Tenant E) :=
  let sidecar := MetadataSidecar.empty tenantId embeddingDim
  match sidecar.writeToPath J env.writeMeta files.metaJson with
  | (metaJson, .error e) => ({ files with metaJson }, .error e)
  | (metaJson, .ok ()) =>
    ({ files with metaJson }, .ok (handle dir idx sidecar tenantId embeddingDim))

/-- `meta.json` exists: read it, check the dimension, open the index. -/
def reopen (tenantId : TenantId) (embeddingDim : UInt32) : Dir E × Except TenantError (Tenant E) :=
  match MetadataSidecar.readFromPath J env.readMeta files.metaJson with
  | .error e => (files, .error e)
  | .ok loaded =>
    if loaded.embeddingDim ≠ embeddingDim then
      (files, .error (.dimMismatch loaded.embeddingDim embeddingDim))
    else
      match openEngine env files embeddingDim with
      | (files, .error e) => (files, .error e)
      | (files, .ok idx) => (files, .ok (handle dir idx loaded tenantId embeddingDim))

/-- No `meta.json` over an existing index: reopen it and start from an empty sidecar. -/
def adopt (tenantId : TenantId) (embeddingDim : UInt32) : Dir E × Except TenantError (Tenant E) :=
  match openEngine env files embeddingDim with
  | (files, .error e) => (files, .error e)
  | (files, .ok idx) => startEmpty J env dir tenantId embeddingDim idx files

/-- Neither file: create an empty index and an empty sidecar. -/
def create (tenantId : TenantId) (embeddingDim : UInt32) : Dir E × Except TenantError (Tenant E) :=
  match E.createEmpty env.engine files.engine embeddingDim.toNat defaultLSearch with
  | (engine, .error e) => ({ files with engine }, .error (.io e))
  | (engine, .ok idx) => startEmpty J env dir tenantId embeddingDim idx { files with engine }

/-- The branch of `open` that a directory selects. -/
inductive Branch
  | reopen
  | adopt
  | create
  deriving DecidableEq, Repr

def branch (files : Dir E) : Branch :=
  if files.metaJson.isSome then .reopen
  else if indexExists files.engine then .adopt
  else .create

/-- Open or create a tenant for read-write access. -/
def «open» (tenantId : TenantId) (embeddingDim : UInt32) : Dir E × Except TenantError (Tenant E) :=
  match env.createDirAll with
  | some e => (files, .error (.io e))
  | none =>
    match branch files with
    | .reopen => reopen J env dir files tenantId embeddingDim
    | .adopt => adopt J env dir files tenantId embeddingDim
    | .create => create J env dir files tenantId embeddingDim

/-- Open an existing tenant in read-only mode, with the id and dimension of its sidecar. -/
def openReadonlyAt : Dir E × Except TenantError (Tenant E) :=
  if files.metaJson.isSome then
    match MetadataSidecar.readFromPath J env.readMeta files.metaJson with
    | .error e => (files, .error e)
    | .ok sidecar =>
      match openEngine env files sidecar.embeddingDim with
      | (files, .error e) => (files, .error e)
      | (files, .ok idx) =>
        let t := handle dir idx sidecar sidecar.tenantId sidecar.embeddingDim
        (files, .ok { t with readOnly := true })
  else (files, .error (.notFound dir))

end Open

/-! ## Writing -/

/-- `emit`: broadcast to every live subscriber, pruning the dead ones. -/
def emit (t : Tenant E) (event : Event) : Tenant E :=
  { t with subscribers := broadcast event t.subscribers }

/-- `TenantEvents::subscribe`; `stream` names the new stream. The filter stays with the receiver. -/
def subscribe (t : Tenant E) (stream : Nat) : Tenant E :=
  { t with subscribers := t.subscribers ++ [{ stream, queue := [], live := true }] }

/-- The consumer drops the stream. -/
def dropStream (t : Tenant E) (stream : Nat) : Tenant E :=
  { t with subscribers := dropReceiver stream t.subscribers }

/-- The error of a write through a read-only handle. -/
def readOnlyError : TenantError := .io ⟨.permissionDenied, "tenant opened read-only"⟩

/-- The arguments of an insert. -/
structure Record (F : Type) where
  recordId : RecordId
  embedding : List F
  shareable : Bool
  tags : List String
  payload : Bytes
  deriving DecidableEq, Repr

/-- The sidecar entry an insert writes. -/
def Record.entry (r : Record F) : RecordEntry :=
  { recordId := r.recordId.val, shareable := r.shareable, tags := r.tags, payload := r.payload }

/-- `insert` up to `drop(inner)`: the engine first, then the in-memory sidecar. -/
def insertState (env : E.Env) (files : Dir E) (t : Tenant E) (r : Record F) :
    Dir E × Tenant E × Except TenantError Unit :=
  if t.readOnly then (files, t, .error readOnlyError)
  else if asU32 r.embedding.length ≠ t.embeddingDim then
    (files, t, .error (.dimMismatch t.embeddingDim (asU32 r.embedding.length)))
  else
    -- the vector is durable before the sidecar knows the id
    match E.insert env files.engine t.inner.index r.recordId.val r.embedding with
    | ((engine, index), .error e) =>
      ({ files with engine }, { t with inner := { t.inner with index } }, .error (.io e))
    | ((engine, index), .ok ()) =>
      let records := Keyed.upsert RecordEntry.recordId r.entry t.inner.sidecar.records
      let sidecar := { t.inner.sidecar with records }
      ({ files with engine }, { t with inner := { index, sidecar } }, .ok ())

/-- Insert or overwrite a record. -/
def insert (env : E.Env) (files : Dir E) (t : Tenant E) (r : Record F) :
    Dir E × Tenant E × Except TenantError Unit :=
  match insertState env files t r with
  | (files, t, .error e) => (files, t, .error e)
  | (files, t, .ok ()) => (files, t.emit (.recordInserted r.recordId r.shareable), .ok ())

/-- `delete` up to `drop(inner)`. The index is not touched. -/
def deleteState (t : Tenant E) (id : RecordId) : Tenant E × Except TenantError Bool :=
  if t.readOnly then (t, .error readOnlyError)
  else
    let before := t.inner.sidecar.records.length
    let records := Keyed.remove RecordEntry.recordId id.val t.inner.sidecar.records
    -- `Vec::retain` reports nothing, so the source compares the lengths
    let removed := decide (records.length ≠ before)
    let sidecar := { t.inner.sidecar with records }
    ({ t with inner := { t.inner with sidecar } }, .ok removed)

/-- Remove a record; `true` when it was present. -/
def delete (t : Tenant E) (id : RecordId) : Tenant E × Except TenantError Bool :=
  match deleteState t id with
  | (t, .error e) => (t, .error e)
  | (t, .ok removed) => (if removed then t.emit (.recordDeleted id) else t, .ok removed)

/-- Persist the sidecar. -/
def flush (J : SerdeJson) (o : WriteOutcome) (files : Dir E) (t : Tenant E) :
    Dir E × Except TenantError Unit :=
  if t.readOnly then (files, .ok ())
  else
    match t.inner.sidecar.writeToPath J o files.metaJson with
    | (metaJson, r) => ({ files with metaJson }, r)

/-- Merge the engine's streaming delta into its main graph. -/
def consolidate (env : E.Env) (files : Dir E) (t : Tenant E) :
    Dir E × Tenant E × Except TenantError Unit :=
  if t.readOnly then (files, t, .ok ())
  else
    match E.consolidate env files.engine t.inner.index with
    | ((engine, index), .error e) =>
      ({ files with engine }, { t with inner := { t.inner with index } }, .error (.io e))
    | ((engine, index), .ok ()) =>
      ({ files with engine }, { t with inner := { t.inner with index } }, .ok ())

/-- `impl TenantWrite for Tenant`, on the directory and the handle: every call meets the same
environment. -/
def writer (J : SerdeJson) (env : E.Env) (o : WriteOutcome) :
    TenantWrite (Dir E × Tenant E) F TenantError where
  insert s recordId embedding shareable tags payload :=
    let (files, t, r) := insert env s.1 s.2 ⟨recordId, embedding, shareable, tags, payload⟩
    ((files, t), r)
  flush s :=
    let (files, r) := flush J o s.1 s.2
    ((files, s.2), r)
  embeddingDim s := s.2.embeddingDim

/-! ## Searching -/

/-- The metadata view of a candidate with its sidecar entry. -/
def metaOf (id : UInt64) (e : RecordEntry) : RecordMeta := ⟨⟨id⟩, e.shareable, e.tags⟩

/-- The hit for a candidate with its sidecar entry. A vector that cannot be read leaves `none`. -/
def hitOf (t : Tenant E) (id : UInt64) (sim : S) (e : RecordEntry) : Hit F S :=
  { recordId := ⟨id⟩
    similarity := sim
    payload := e.payload
    embedding :=
      -- `get(..).ok().flatten()`: an I/O error reads as an absent vector
      match E.get t.inner.index id with
      | .ok v => v
      | .error _ => none }

/-- The loop of `query_filtered` over the raw candidates. It stops after the push that brings the
result to `topK` hits. -/
def collectHits (t : Tenant E) (topK : Nat) (filter : Filter) :
    List (UInt64 × S) → List (Hit F S) → List (Hit F S)
  | [], out => out
  | (id, sim) :: raw, out =>
    match t.inner.sidecar.get ⟨id⟩ with
    -- a candidate that the sidecar does not know is skipped: deleted, or inserted and never flushed
    | none => collectHits t topK filter raw out
    | some e =>
      if filter (metaOf id e) then
        -- push first, compare after: with `top_k = 0` the first accepted candidate still comes out
        let out := out ++ [t.hitOf id sim e]
        if out.length ≥ topK then out else collectHits t topK filter raw out
      else collectHits t topK filter raw out

/-- The number of candidates asked of the engine: four times `top_k`, at least 64. -/
def oversample (topK : UInt32) : Nat := max (topK.toNat * 4) 64

/-- Filtered similarity search: oversample, then post-filter. -/
def queryFiltered (t : Tenant E) (embedding : List F) (topK : UInt32) (filter : Filter) :
    Except QueryError (List (Hit F S)) :=
  if asU32 embedding.length ≠ t.embeddingDim then
    .error (.embeddingDimMismatch t.embeddingDim (asU32 embedding.length))
  else
    match E.search t.inner.index embedding (oversample topK) with
    | .error e => .error (.io e)
    | .ok raw => .ok (collectHits t topK.toNat filter raw [])

/-! ## Walking the records -/

/-- `IterVectors::iter_vectors`: the listed ids with their vectors, in sidecar order. -/
def iterVectors (t : Tenant E) : List (RecordId × List F) :=
  t.inner.sidecar.records.filterMap fun rec_ =>
    match E.get t.inner.index rec_.recordId with
    | .ok (some v) => some (⟨rec_.recordId⟩, v)
    -- tombstoned or missing
    | .ok none => none
    -- an I/O error is skipped; the caller can tell from the count
    | .error _ => none

/-- `record_count`, the same in `TenantInfo`, `TenantStats` and `IterVectors`. -/
def recordCount (t : Tenant E) : Nat := t.inner.sidecar.records.length

/-! ## Copying a directory -/

/-- A file of a tenant directory. -/
inductive DirEntry
  | metaJson
  | engine (name : String)
  deriving DecidableEq, Repr

/-- The file is in the directory. -/
def DirEntry.isIn (files : Dir E) : DirEntry → Bool
  | .metaJson => files.metaJson.isSome
  | .engine name => (files.engine name).isSome

/-- `std::fs::copy` of one file into the other directory; a missing source is an error. -/
def copyFile (src dest : Dir E) (entry : DirEntry) : Option (Dir E) :=
  match entry with
  | .metaJson => src.metaJson.map fun bytes => { dest with metaJson := some bytes }
  | .engine name =>
    (src.engine name).map fun c => { dest with engine := Function.update dest.engine name (some c) }

/-- `copy_dir_contents` between two directories that do not overlap: copy the entries in the order
`read_dir` enumerates them. `fail` is the error of the copy that fails, if one does, with the number
of copies made before it. -/
def copyDirContents (fail : Option (Nat × IoError)) (src : Dir E) :
    List DirEntry → Dir E → Dir E × Except IoError Unit
  | [], dest => (dest, .ok ())
  | entry :: entries, dest =>
    match fail with
    | some (0, e) => (dest, .error e)
    | some (n + 1, e) =>
      match copyFile src dest entry with
      | none => (dest, .error ⟨.notFound, "No such file or directory (os error 2)"⟩)
      | some dest => copyDirContents (some (n, e)) src entries dest
    | none =>
      match copyFile src dest entry with
      | none => (dest, .error ⟨.notFound, "No such file or directory (os error 2)"⟩)
      | some dest => copyDirContents none src entries dest

/-- What the environment decides during a snapshot or the copy phase of a restore: an error of the
directory creation, the enumeration order, and the copy that fails, if one does. -/
structure CopyEnv where
  createDirAll : Option IoError
  order : List DirEntry
  fail : Option (Nat × IoError)

/-- `TenantLifecycle::snapshot` into another directory: flush, then copy. It returns the tenant
directory, the destination, and the result. -/
def snapshot (J : SerdeJson) (o : WriteOutcome) (env : CopyEnv) (files dest : Dir E)
    (t : Tenant E) : Dir E × Dir E × Except OpenError Unit :=
  match env.createDirAll with
  | some e => (files, dest, .error (.ofIo e))
  | none =>
    match t.flush J o files with
    | (files, .error e) => (files, dest, .error (.ofTenantError e))
    | (files, .ok ()) =>
      match copyDirContents env.fail files env.order dest with
      | (dest, .error e) => (files, dest, .error (.io e))
      | (dest, .ok ()) => (files, dest, .ok ())

/-- Restore the snapshot directory `src` into `dest`: refuse a populated destination and a source
without sidecar, copy, and open with the recorded id and dimension. -/
def restoreFrom (J : SerdeJson) (copy : CopyEnv) (env : OpenEnv E) (srcPath destPath : PathBuf)
    (src dest : Dir E) : Dir E × Except TenantError (Tenant E) :=
  -- the guard looks at the sidecar only: engine files of an earlier tenant do not stop a restore
  if dest.metaJson.isSome then
    (dest, .error (.io ⟨.alreadyExists,
      "restore destination already populated: " ++ destPath.display⟩))
  else if src.metaJson.isNone then (dest, .error (.notFound srcPath))
  else
    match copy.createDirAll with
    | some e => (dest, .error (.io e))
    | none =>
      match copyDirContents copy.fail src copy.order dest with
      | (dest, .error e) => (dest, .error (.io e))
      | (dest, .ok ()) =>
        match MetadataSidecar.readFromPath J env.readMeta dest.metaJson with
        | .error e => (dest, .error e)
        | .ok sidecar => «open» J env destPath dest sidecar.tenantId sidecar.embeddingDim

/-- Create a brand-new tenant: refuse a directory with a sidecar, and open any other. -/
def createNew (J : SerdeJson) (env : OpenEnv E) (path : PathBuf) (files : Dir E)
    (tenantId : TenantId) (embeddingDim : UInt32) : Dir E × Except TenantError (Tenant E) :=
  if files.metaJson.isSome then
    (files, .error (.io ⟨.alreadyExists, "tenant already exists at " ++ path.display⟩))
  else «open» J env path files tenantId embeddingDim

/-! ## Destroying -/

/-- What the operating system makes of one `std::fs::remove_dir_all`: it removes the directory, or
it stops with an error and some files kept. -/
inductive RemoveOutcome
  | done
  | stopped (kept : DirEntry → Bool) (error : IoError)

/-- The files of a directory that `kept` selects. -/
def keepFiles (kept : DirEntry → Bool) (files : Dir E) : Dir E where
  metaJson := if kept .metaJson then files.metaJson else none
  engine name := if kept (.engine name) then files.engine name else none

/-- `TenantLifecycle::destroy`: drop the handle and remove its directory. -/
def destroy (o : RemoveOutcome) (files : Dir E) (_t : Tenant E) : Dir E × Except OpenError Unit :=
  -- the body clones `dir` and never looks at `read_only`
  match o with
  | .done => (Dir.fresh, .ok ())
  | .stopped kept e => (keepFiles kept files, .error (.io e))

end Tenant

end SkegRigging
