import SkegRigging.Adapter.TenantSpec
import SkegRigging.Library.Runs
import SkegRigging.Reference.Engine
import SkegRigging.Reference.Json
import SkegRigging.Rigging.Mock

/-!
# The two tenants answer alike

A `MockTenant` and a read-write `Tenant` get the same calls. The mock keeps one list of records; the
tenant keeps a sidecar, and vectors in the index, where a deleted id leaves its vector behind. The
relation between them (`Simulates`) is that the mock's records are the sidecar's entries with the
vectors that the index has for the listed ids. Every call keeps it (`step_simulates`), so along
every run the two give the same answers and hold the same data (`eachState_same`).
-/

set_option autoImplicit false

namespace SkegRigging

open DiskVamanaIndex

variable {F S : Type}

/-- A `MockTenant` beside a `Tenant` with its directory. -/
structure Twins (E : DiskVamanaIndex F S) where
  mock : MockTenant F
  files : Dir E
  tenant : Tenant E

namespace Twins

variable {E : DiskVamanaIndex F S}

/-- A call on either tenant. `env` is what the engine meets during an insert. -/
inductive Call (E : DiskVamanaIndex F S)
  | insert (env : E.Env) (r : Tenant.Record F)
  | delete (id : RecordId)
  | subscribe (stream : Nat) (filter : EventFilter)
  | dropStream (stream : Nat)

/-- What a caller sees of a call. -/
inductive Reply
  | done
  | removed (present : Bool)
  | failed
  deriving DecidableEq, Repr

/-- The call on the mock. -/
def callMock (t : MockTenant F) : Call E → MockTenant F × Reply
  | .insert _ r =>
    match t.insert r.recordId r.embedding r.shareable r.tags r.payload with
    | (t, .ok ()) => (t, .done)
    | (t, .err _) => (t, .failed)
    | (t, .panic _) => (t, .failed)
  | .delete id =>
    match t.delete id with
    | (t, removed) => (t, .removed removed)
  | .subscribe stream _ => (t.subscribe stream, .done)
  | .dropStream stream => (t.dropStream stream, .done)

/-- The call on the tenant. -/
def callTenant (files : Dir E) (t : Tenant E) : Call E → Dir E × Tenant E × Reply
  | .insert env r =>
    match t.insert env files r with
    | (files, t, .ok ()) => (files, t, .done)
    | (files, t, .error _) => (files, t, .failed)
  | .delete id =>
    match t.delete id with
    | (t, .ok removed) => (files, t, .removed removed)
    | (t, .error _) => (files, t, .failed)
  | .subscribe stream _ => (files, t.subscribe stream, .done)
  | .dropStream stream => (files, t.dropStream stream, .done)

/-- The call on both. -/
def step (s : Twins E) (c : Call E) : Twins E :=
  let (files, tenant, _) := callTenant s.files s.tenant c
  { mock := (callMock s.mock c).1, files, tenant }

/-- Both give the same answer. -/
def SameReply (s : Twins E) (c : Call E) : Prop :=
  (callMock s.mock c).2 = (callTenant s.files s.tenant c).2.2

/-- An insert has a vector of the tenants' dimension, and the engine accepts it. -/
def Accepted (s : Twins E) : Call E → Prop
  | .insert env r => asU32 r.embedding.length = s.mock.dim ∧
      ∃ x, E.insert env s.files.engine s.tenant.inner.index r.recordId.val r.embedding = (x, .ok ())
  | _ => True

/-- The sidecar entry of a mock record. -/
def entryOf (r : MockRecord F) : RecordEntry :=
  { recordId := r.recordId.val, shareable := r.shareable, tags := r.tags, payload := r.payload }

/-- What an observer can compare: the records without their vectors, the vectors, the count, and
the senders with everything that was sent on them. -/
structure Same (s : Twins E) : Prop where
  records : s.mock.records.map entryOf = s.tenant.inner.sidecar.records
  vectors : s.mock.iterVectors = s.tenant.iterVectors
  count : s.mock.recordCount = s.tenant.recordCount
  subscribers : s.mock.subscribers = s.tenant.subscribers

/-- The simulation relation. -/
structure Simulates (M : E.Model) (s : Twins E) : Prop where
  records : s.mock.records.map entryOf = s.tenant.inner.sidecar.records
  subscribers : s.mock.subscribers = s.tenant.subscribers
  dim : s.tenant.embeddingDim = s.mock.dim
  nodup : (s.mock.records.map MockRecord.recordId).Nodup
  vector : ∀ r ∈ s.mock.records, M.vectors s.tenant.inner.index r.recordId.val = some r.embedding
  attached : M.attached s.files.engine s.tenant.inner.index
  writable : s.tenant.readOnly = false
  unlimited : s.mock.quota = .unlimited

/-! ## The two inserts -/

section Steps

variable {M : E.Model} {s : Twins E}

theorem checkQuota_unlimited {t : MockTenant F} (h : t.quota = .unlimited) (r : MockRecord F) :
    t.checkQuota r = none := by
  rw [MockTenant.checkQuota, h]
  rfl

/-- The mock record of an insert. -/
def mockRecord (r : Tenant.Record F) : MockRecord F :=
  ⟨r.recordId, r.embedding, r.shareable, r.tags, r.payload⟩

/-- Without a quota the mock stores every row of its dimension. -/
theorem callMock_insert {t : MockTenant F} (hq : t.quota = .unlimited) (env : E.Env)
    {r : Tenant.Record F} (hdim : asU32 r.embedding.length = t.dim) :
    callMock t (.insert env r) =
      (({ t with records := Keyed.upsert MockRecord.recordId (mockRecord r) t.records }).emit
        (.recordInserted r.recordId r.shareable), .done) := by
  have hinsert : t.insert r.recordId r.embedding r.shareable r.tags r.payload =
      t.insertRecord (mockRecord r) := rfl
  rw [callMock, hinsert]
  rcases t.insertRecord_cases (mockRecord r) with ⟨hne, -⟩ | ⟨-, -, e, he, -⟩ | ⟨-, -, h⟩
  · exact absurd hdim hne
  · rw [checkQuota_unlimited hq] at he
    simp at he
  · rw [h]
    rfl

/-- The tenant stores the vector and the entry, once the engine has accepted the vector. -/
theorem callTenant_insert (files : Dir E) {t : Tenant E} (hro : t.readOnly = false) {env : E.Env}
    {r : Tenant.Record F} (hdim : asU32 r.embedding.length = t.embeddingDim) {engine : E.Files}
    {index : E.Handle}
    (hins : E.insert env files.engine t.inner.index r.recordId.val r.embedding =
      ((engine, index), .ok ())) :
    callTenant files t (.insert env r) = ({ files with engine },
      ((t.withIndex index).withRecords
        (Keyed.upsert RecordEntry.recordId r.entry t.inner.sidecar.records)).emit
          (.recordInserted r.recordId r.shareable), .done) := by
  have hstate : Tenant.insertState env files t r = ({ files with engine },
      (t.withIndex index).withRecords
        (Keyed.upsert RecordEntry.recordId r.entry t.inner.sidecar.records), .ok ()) := by
    rw [Tenant.insertState, if_neg (by simp [hro]), if_neg (not_not.2 hdim), hins]
    rfl
  rw [callTenant, Tenant.insert, hstate]

theorem map_entryOf_upsert (r : Tenant.Record F) (rs : List (MockRecord F)) :
    (Keyed.upsert MockRecord.recordId (mockRecord r) rs).map entryOf =
      Keyed.upsert RecordEntry.recordId r.entry (rs.map entryOf) := by
  have hkey : ∀ x y : MockRecord F, (entryOf x).recordId = (entryOf y).recordId ↔
      x.recordId = y.recordId := by
    intro x y
    exact RecordId.val_inj
  exact Keyed.map_upsert MockRecord.recordId RecordEntry.recordId hkey (mockRecord r) rs

theorem map_entryOf_remove (id : RecordId) (rs : List (MockRecord F)) :
    (Keyed.remove MockRecord.recordId id rs).map entryOf =
      Keyed.remove RecordEntry.recordId id.val (rs.map entryOf) := by
  have hkey : ∀ x : MockRecord F, (entryOf x).recordId = id.val ↔ x.recordId = id := by
    intro x
    exact RecordId.val_inj
  exact Keyed.map_remove MockRecord.recordId RecordEntry.recordId hkey rs

theorem step_insert (hs : Simulates M s) {env : E.Env} {r : Tenant.Record F}
    (ha : Accepted s (.insert env r)) :
    Simulates M (step s (.insert env r)) ∧ SameReply s (.insert env r) := by
  obtain ⟨hdim, ⟨engine, index⟩, hins⟩ := ha
  have hmock := callMock_insert (E := E) hs.unlimited env hdim
  have htenant := callTenant_insert s.files hs.writable (hdim.trans hs.dim.symm) hins
  obtain ⟨hatt, hvec⟩ := M.insert_ok hs.attached hins
  refine ⟨?_, by rw [SameReply, hmock, htenant]⟩
  have hstep : step s (.insert env r) =
      { mock := (callMock s.mock (.insert env r)).1
        files := (callTenant s.files s.tenant (.insert env r)).1
        tenant := (callTenant s.files s.tenant (.insert env r)).2.1 } := rfl
  rw [hstep, hmock, htenant]
  refine ⟨?_, ?_, hs.dim, Keyed.nodup_upsert _ hs.nodup, ?_, hatt, hs.writable, hs.unlimited⟩
  · have hrecords := map_entryOf_upsert r s.mock.records
    rw [hs.records] at hrecords
    exact hrecords
  · exact congrArg (broadcast _) hs.subscribers
  · intro x hx
    change M.vectors index x.recordId.val = some x.embedding
    rw [hvec]
    rcases (Keyed.mem_upsert_iff MockRecord.recordId hs.nodup).1 hx with rfl | ⟨hold, hne⟩
    · exact Function.update_self _ _ _
    · have hval : x.recordId.val ≠ r.recordId.val := fun h => hne (RecordId.val_inj.1 h)
      rw [Function.update_of_ne hval]
      exact hs.vector x hold

/-! ## The other calls -/

/-- Both deletes drop the record and tell whether there was one. The vector stays in the index. -/
theorem step_delete (hs : Simulates M s) (id : RecordId) :
    Simulates M (step s (.delete id)) ∧ SameReply s (.delete id) := by
  have hrecords := map_entryOf_remove id s.mock.records
  rw [hs.records] at hrecords
  have hlength : (Keyed.remove MockRecord.recordId id s.mock.records).length =
      (Keyed.remove RecordEntry.recordId id.val s.tenant.inner.sidecar.records).length := by
    rw [← hrecords, List.length_map]
  have hbefore : s.mock.records.length = s.tenant.inner.sidecar.records.length := by
    rw [← hs.records, List.length_map]
  have hstate : s.tenant.deleteState id = (s.tenant.withRecords
      (Keyed.remove RecordEntry.recordId id.val s.tenant.inner.sidecar.records),
      .ok (decide ((Keyed.remove MockRecord.recordId id s.mock.records).length ≠
        s.mock.records.length))) := by
    rw [Tenant.deleteState, if_neg (by simp [hs.writable]), hlength, hbefore]
    rfl
  -- a remaining record has the vector it had
  have hvector : ∀ x ∈ Keyed.remove MockRecord.recordId id s.mock.records,
      M.vectors s.tenant.inner.index x.recordId.val = some x.embedding := fun x hx =>
    hs.vector x ((Keyed.mem_remove MockRecord.recordId).1 hx).1
  have hnodup := Keyed.nodup_remove MockRecord.recordId (k := id) hs.nodup
  have hstep : step s (.delete id) =
      { mock := (callMock (E := E) s.mock (.delete id)).1
        files := (callTenant s.files s.tenant (.delete id)).1
        tenant := (callTenant s.files s.tenant (.delete id)).2.1 } := rfl
  rw [SameReply, hstep, callMock, callTenant, Tenant.delete, hstate, MockTenant.delete]
  dsimp only
  split
  · refine ⟨⟨hrecords, ?_, hs.dim, hnodup, hvector, hs.attached, hs.writable, hs.unlimited⟩, rfl⟩
    exact congrArg (broadcast _) hs.subscribers
  · exact ⟨⟨hrecords, hs.subscribers, hs.dim, hnodup, hvector, hs.attached, hs.writable,
      hs.unlimited⟩, rfl⟩

/-- Every call keeps the simulation and gets the same answer from both tenants. -/
theorem step_simulates (hs : Simulates M s) {c : Call E} (ha : Accepted s c) :
    Simulates M (step s c) ∧ SameReply s c := by
  cases c with
  | insert env r => exact step_insert hs ha
  | delete id => exact step_delete hs id
  | subscribe stream filter =>
    refine ⟨⟨hs.records, ?_, hs.dim, hs.nodup, hs.vector, hs.attached, hs.writable,
      hs.unlimited⟩, rfl⟩
    exact congrArg (· ++ _) hs.subscribers
  | dropStream stream =>
    refine ⟨⟨hs.records, ?_, hs.dim, hs.nodup, hs.vector, hs.attached, hs.writable,
      hs.unlimited⟩, rfl⟩
    exact congrArg (dropReceiver stream) hs.subscribers

/-- The vectors that the tenant walks are those of the mock, when the engine reads them back. -/
theorem Simulates.same (hget : GetExact M) (hs : Simulates M s) : Same s where
  records := hs.records
  subscribers := hs.subscribers
  count := by
    rw [MockTenant.recordCount, Tenant.recordCount, ← hs.records, List.length_map]
  vectors := by
    rw [MockTenant.iterVectors, Tenant.iterVectors, ← hs.records, List.filterMap_map,
      ← List.filterMap_eq_map]
    apply List.filterMap_congr
    intro x hx
    have hread : E.get s.tenant.inner.index (entryOf x).recordId = .ok (some x.embedding) :=
      (hget _ _).trans (congrArg Except.ok (hs.vector x hx))
    rw [Function.comp_apply, Function.comp_apply, hread]
    rfl

/-- Both tenants before the first call. -/
def start (tenantId : TenantId) (embeddingDim : UInt32) (files : Dir E) (t : Tenant E) : Twins E :=
  { mock := .new tenantId embeddingDim, files, tenant := t }

/-- An opened tenant without records simulates a new mock, whatever vectors the index may hold. -/
theorem start_simulates {J : SerdeJson} {env : OpenEnv E} {dir : PathBuf} {files files' : Dir E}
    {tenantId : TenantId} {embeddingDim : UInt32} {t : Tenant E}
    (hopen : Tenant.open J env dir files tenantId embeddingDim = (files', .ok t))
    (hempty : t.inner.sidecar.records = []) :
    Simulates M (start tenantId embeddingDim files' t) := by
  have hopened := Tenant.open_ok M hopen
  refine ⟨hempty.symm, ?_, ?_, List.nodup_nil, ?_, hopened.attached, ?_, rfl⟩
  · rw [start, hopened.handle]
    rfl
  · rw [start, hopened.handle]
    rfl
  · intro r hr
    simp [start, MockTenant.new] at hr
  · rw [start, hopened.handle]
    rfl

/-- Along every run of accepted calls the two tenants hold the same and give the same answers. -/
theorem eachState_same (M : E.Model) (hget : GetExact M) {J : SerdeJson} {env : OpenEnv E}
    {dir : PathBuf} {files files' : Dir E} {tenantId : TenantId} {embeddingDim : UInt32}
    {t : Tenant E} (hopen : Tenant.open J env dir files tenantId embeddingDim = (files', .ok t))
    (hempty : t.inner.sidecar.records = []) {calls : List (Call E)}
    (haccepted : Runs.EachStep step Accepted (start tenantId embeddingDim files' t) calls) :
    Runs.EachState step Same (start tenantId embeddingDim files' t) calls ∧
      Runs.EachStep step SameReply (start tenantId embeddingDim files' t) calls := by
  have hstart : Simulates M (start tenantId embeddingDim files' t) := start_simulates hopen hempty
  have hstep : ∀ (s : Twins E) c, Simulates M s → Accepted s c → Simulates M (step s c) :=
    fun s c hs ha => (step_simulates hs ha).1
  have hreply : ∀ (s : Twins E) c, Simulates M s → Accepted s c → SameReply s c :=
    fun s c hs ha => (step_simulates hs ha).2
  constructor
  · have hstates := Runs.eachState_of_step step hstep hstart haccepted
    exact hstates.imp step fun s hs => hs.same hget
  · exact Runs.eachStep_of_step step hstep hreply hstart haccepted

end Steps

section Script

open Reference

/-- The directory and the handle of the tenant in the example. -/
def opening : Dir engine × Except TenantError (Tenant engine) :=
  Tenant.open json quiet home Dir.fresh .zero 1

/-- A subscriber, an insert, a delete, and the deleted id again with another vector. -/
def script : List (Call engine) :=
  [.subscribe 0 .all, .insert false ⟨⟨1⟩, [5], true, ["a"], [7]⟩, .subscribe 1 .none, .delete ⟨1⟩,
    .dropStream 0, .insert false ⟨⟨2⟩, [6], false, [], []⟩,
    .insert false ⟨⟨1⟩, [8], false, [], [9]⟩, .delete ⟨3⟩]

theorem eachState_same_example :
    ∃ files t, opening = (files, .ok t) ∧
      Runs.EachState step Same (start .zero 1 files t) script ∧
        Runs.EachStep step SameReply (start .zero 1 files t) script := by
  have hopen : ∃ files t, opening = (files, .ok t) ∧ t.inner.sidecar.records = [] :=
    ⟨_, _, rfl, rfl⟩
  obtain ⟨files, t, hopen, hempty⟩ := hopen
  refine ⟨files, t, hopen, ?_⟩
  apply eachState_same model getExact hopen hempty
  simp only [script, Runs.EachStep, Accepted, true_and, and_true]
  exact ⟨⟨rfl, _, rfl⟩, ⟨rfl, _, rfl⟩, rfl, _, rfl⟩

end Script

end Twins

end SkegRigging
