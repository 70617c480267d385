import SkegRigging.Adapter.TenantSpec
import SkegRigging.Library.Runs

/-!
# Sessions: one tenant directory over its whole life

A session is a tenant directory with at most one open handle. An operation calls the handle, opens
one, or ends it: a drop and a crash both end the handle and leave the files, since no destructor
writes. A crash inside `open` after the index is ready leaves the files of an `open` whose sidecar
write was refused (`Op.crashInOpen`).

`Session.history` records what the operations did, newest first: the inserts that returned `Ok` and
the sidecars that were written in full. `Trans` lists what one operation can do to a session,
`step_trans` shows that the list is complete, and `Session.Inv` ties the files and the handle to the
history.
-/

set_option autoImplicit false

namespace SkegRigging

open DiskVamanaIndex

variable {F S : Type}

/-- What a history records: an insert that returned `Ok`, or a complete write of the sidecar. -/
inductive Mark (F : Type)
  | inserted (r : Tenant.Record F)
  | wrote (s : MetadataSidecar)
  deriving DecidableEq

namespace History

/-- The vector of the latest insert of each id. -/
def latest : List (Mark F) → UInt64 → Option (List F)
  | [] => fun _ => none
  | .inserted r :: h => Function.update (latest h) r.recordId.val (some r.embedding)
  | .wrote _ :: h => latest h

/-- The sidecar last written. -/
def written : List (Mark F) → Option MetadataSidecar
  | [] => none
  | .inserted _ :: h => written h
  | .wrote s :: _ => some s

/-- The history before the last write of the sidecar. -/
def beforeWrite : List (Mark F) → List (Mark F)
  | [] => []
  | .inserted _ :: h => beforeWrite h
  | .wrote _ :: h => h

/-- Some insert returned `Ok`. -/
def Inserted (h : List (Mark F)) : Prop := ∃ r, Mark.inserted r ∈ h

@[simp] theorem latest_nil : latest ([] : List (Mark F)) = fun _ => none := rfl

@[simp] theorem latest_inserted (r : Tenant.Record F) (h : List (Mark F)) :
    latest (.inserted r :: h) = Function.update (latest h) r.recordId.val (some r.embedding) := rfl

@[simp] theorem latest_wrote (s : MetadataSidecar) (h : List (Mark F)) :
    latest (.wrote s :: h) = latest h := rfl

@[simp] theorem written_nil : written ([] : List (Mark F)) = none := rfl

@[simp] theorem written_inserted (r : Tenant.Record F) (h : List (Mark F)) :
    written (.inserted r :: h) = written h := rfl

@[simp] theorem written_wrote (s : MetadataSidecar) (h : List (Mark F)) :
    written (.wrote s :: h) = some s := rfl

@[simp] theorem beforeWrite_inserted (r : Tenant.Record F) (h : List (Mark F)) :
    beforeWrite (.inserted r :: h) = beforeWrite h := rfl

@[simp] theorem beforeWrite_wrote (s : MetadataSidecar) (h : List (Mark F)) :
    beforeWrite (.wrote s :: h) = h := rfl

theorem beforeWrite_subset {m : Mark F} {h : List (Mark F)} (hm : m ∈ beforeWrite h) : m ∈ h := by
  induction h with
  | nil => exact hm
  | cons x h ih =>
    cases x with
    | inserted r => exact List.mem_cons_of_mem _ (ih hm)
    | wrote s => exact List.mem_cons_of_mem _ hm

/-- A latest vector is that of some insert of the id. -/
theorem inserted_of_latest {id : UInt64} {v : List F} {h : List (Mark F)}
    (hv : latest h id = some v) :
    ∃ r, Mark.inserted r ∈ h ∧ r.recordId.val = id ∧ r.embedding = v := by
  induction h with
  | nil => simp at hv
  | cons m h ih =>
    have hrest : latest h id = some v → ∃ r, Mark.inserted r ∈ m :: h ∧ r.recordId.val = id ∧
        r.embedding = v := by
      intro hv'
      obtain ⟨r, hr, hid⟩ := ih hv'
      exact ⟨r, List.mem_cons_of_mem _ hr, hid⟩
    cases m with
    | inserted r =>
      by_cases hid : id = r.recordId.val
      · rw [latest_inserted, hid, Function.update_self, Option.some.injEq] at hv
        exact ⟨r, List.mem_cons_self, hid.symm, hv⟩
      · rw [latest_inserted, Function.update_of_ne hid] at hv
        exact hrest hv
    | wrote w => exact hrest hv

/-- An id that was inserted has a latest vector. -/
theorem latest_isSome {r : Tenant.Record F} {h : List (Mark F)} (hr : Mark.inserted r ∈ h) :
    (latest h r.recordId.val).isSome := by
  induction h with
  | nil => simp at hr
  | cons x h ih =>
    rcases List.mem_cons.1 hr with rfl | hr'
    · simp
    · cases x with
      | inserted r' =>
        by_cases hid : r.recordId.val = r'.recordId.val
        · simp [hid]
        · rw [latest_inserted, Function.update_of_ne hid]
          exact ih hr'
      | wrote s => exact ih hr'

end History

/-- A tenant directory, the open handle if there is one, and what was done so far. -/
structure Session (E : DiskVamanaIndex F S) where
  files : Dir E
  handle : Option (Tenant E)
  history : List (Mark F)

namespace Session

variable {E : DiskVamanaIndex F S}

/-- An operation of a session, with what the environment decides during it. -/
inductive Op (E : DiskVamanaIndex F S)
  | open (env : OpenEnv E) (tenantId : TenantId) (embeddingDim : UInt32)
  | openReadonly (env : OpenEnv E)
  | insert (env : E.Env) (r : Tenant.Record F)
  | delete (id : RecordId)
  | flush (o : WriteOutcome)
  | consolidate (env : E.Env)
  | snapshot (o : WriteOutcome) (env : Tenant.CopyEnv) (dest : Dir E)
  | close

/-- The operation opens a handle. -/
def Op.isOpen : Op E → Bool
  | .open _ _ _ => true
  | .openReadonly _ => true
  | _ => false

/-- The session before the first open. -/
def init : Session E := { files := Dir.fresh, handle := none, history := [] }

/-! ## The step function -/

section Step

variable (J : SerdeJson) (dir : PathBuf)

/-- After `Tenant::open`. It writes a sidecar exactly when there was no `meta.json`. -/
def opened (s : Session E) : Dir E × Except TenantError (Tenant E) → Session E
  | (files, .ok t) =>
    { files
      handle := some t
      history :=
        if s.files.metaJson.isNone then .wrote t.inner.sidecar :: s.history else s.history }
  | (files, .error _) => { s with files }

/-- After `Tenant::open_readonly_at`, which never writes the sidecar. -/
def openedReadonly (s : Session E) : Dir E × Except TenantError (Tenant E) → Session E
  | (files, .ok t) => { s with files, handle := some t }
  | (files, .error _) => { s with files }

/-- After `Tenant::flush` on the handle `t`. -/
def flushed (s : Session E) (t : Tenant E) : Dir E × Except TenantError Unit → Session E
  | (files, .ok ()) =>
    { s with
      files
      history := if t.readOnly then s.history else .wrote t.inner.sidecar :: s.history }
  | (files, .error _) => { s with files }

/-- One operation. There is one handle at a time: an open while a handle is open does nothing, and
neither does a call without a handle. -/
def step (s : Session E) : Op E → Session E
  | .open env tenantId embeddingDim =>
    match s.handle with
    | some _ => s
    | none => s.opened (Tenant.open J env dir s.files tenantId embeddingDim)
  | .openReadonly env =>
    match s.handle with
    | some _ => s
    | none => s.openedReadonly (Tenant.openReadonlyAt J env dir s.files)
  | .insert env r =>
    match s.handle with
    | none => s
    | some t =>
      match t.insert env s.files r with
      | (files, t, .ok ()) => { files, handle := some t, history := .inserted r :: s.history }
      | (files, t, .error _) => { s with files, handle := some t }
  -- a delete stays in memory until the next flush, so the history does not record it
  | .delete id =>
    match s.handle with
    | none => s
    | some t => { s with handle := some (t.delete id).1 }
  | .flush o =>
    match s.handle with
    | none => s
    | some t => s.flushed t (t.flush J o s.files)
  | .consolidate env =>
    match s.handle with
    | none => s
    | some t =>
      match t.consolidate env s.files with
      | (files, t, _) => { s with files, handle := some t }
  | .snapshot o env dest =>
    match s.handle with
    | none => s
    | some t =>
      -- `create_dir_all` comes before the flush: when it fails the sidecar is not written
      match env.createDirAll with
      | some _ => s
      | none =>
        { s.flushed t (t.flush J o s.files) with files := (t.snapshot J o env s.files dest).1 }
  | .close => { s with handle := none }

end Step

/-! ## The invariant -/

section Invariant

open History

variable (M : E.Model) (J : SerdeJson)

/-- The ids of a sidecar are distinct, and every entry is that of an insert that returned `Ok`. -/
structure Listed (h : List (Mark F)) (w : MetadataSidecar) : Prop where
  nodup : w.ids.Nodup
  entry : ∀ e ∈ w.records, ∃ r, Mark.inserted r ∈ h ∧ r.entry = e

theorem Listed.mono {h h' : List (Mark F)} {w : MetadataSidecar} (hw : Listed h w)
    (hsub : ∀ m ∈ h, m ∈ h') : Listed h' w := by
  refine ⟨hw.nodup, ?_⟩
  intro e he
  obtain ⟨r, hr, hre⟩ := hw.entry e he
  exact ⟨r, hsub _ hr, hre⟩

theorem listed_empty (h : List (Mark F)) (tenantId : TenantId) (embeddingDim : UInt32) :
    Listed h (.empty tenantId embeddingDim) :=
  ⟨List.nodup_nil, fun e he => by simp [MetadataSidecar.empty] at he⟩

/-- What the files of a session say about its history. -/
structure Disk (files : Dir E) (h : List (Mark F)) : Prop where
  stored : M.stored files.engine = latest h
  marks : Inserted h → indexExists files.engine = true
  unwritten : files.metaJson = none → written h = none
  persisted : ∀ bytes w, files.metaJson = some bytes → J.fromSlice bytes = .ok w →
    written h = some w
  listed : ∀ w, written h = some w → Listed h w

/-- What the open handle says about the files and the history. -/
structure Held (files : Dir E) (h : List (Mark F)) (t : Tenant E) : Prop where
  attached : M.attached files.engine t.inner.index
  listed : Listed h t.inner.sidecar
  view : t.readOnly = true →
    ∃ bytes, files.metaJson = some bytes ∧ J.fromSlice bytes = .ok t.inner.sidecar

/-- The invariant of a session. -/
structure Inv (s : Session E) : Prop where
  disk : Disk M J s.files s.history
  held : ∀ t, s.handle = some t → Held M J s.files s.history t

/-- The index of an open handle serves the latest vectors. -/
theorem Inv.vectors {s : Session E} (hs : Inv M J s) {t : Tenant E} (ht : s.handle = some t) :
    M.vectors t.inner.index = latest s.history :=
  (M.durable (hs.held t ht).attached).symm.trans hs.disk.stored

variable {M J}

theorem Disk.keep {files files' : Dir E} {h : List (Mark F)} (hd : Disk M J files h)
    (hkeep : Tenant.KeepsStored M files files') (hmeta : files'.metaJson = files.metaJson) :
    Disk M J files' h where
  stored := hkeep.stored.trans hd.stored
  marks hi := hkeep.marks (hd.marks hi)
  unwritten hn := hd.unwritten (hmeta ▸ hn)
  persisted bytes w hb hp := hd.persisted bytes w (hmeta ▸ hb) hp
  listed := hd.listed

/-- A write of the sidecar that failed after the truncation leaves a file that does not parse. -/
theorem Disk.torn (hJ : J.Laws) {files files' : Dir E} {h : List (Mark F)} (hd : Disk M J files h)
    (hkeep : Tenant.KeepsStored M files files') {w : MetadataSidecar} {n : Nat}
    (hn : n < (J.toVec w).length) (hmeta : files'.metaJson = some ((J.toVec w).take n)) :
    Disk M J files' h where
  stored := hkeep.stored.trans hd.stored
  marks hi := hkeep.marks (hd.marks hi)
  unwritten hnone := by
    rw [hmeta] at hnone
    simp at hnone
  persisted bytes w' hb hp := by
    obtain ⟨e, he⟩ := hJ.truncated w n hn
    rw [hmeta, Option.some.injEq] at hb
    rw [← hb, he] at hp
    simp at hp
  listed := hd.listed

/-- A complete write of the sidecar `w`. -/
theorem Disk.wrote (hJ : J.Laws) {files files' : Dir E} {h : List (Mark F)} (hd : Disk M J files h)
    (hkeep : Tenant.KeepsStored M files files') {w : MetadataSidecar} (hw : Listed h w)
    (hmeta : files'.metaJson = some (J.toVec w)) : Disk M J files' (.wrote w :: h) where
  stored := hkeep.stored.trans hd.stored
  marks := by
    rintro ⟨r, hr⟩
    exact hkeep.marks (hd.marks ⟨r, by simpa using hr⟩)
  unwritten hnone := by
    rw [hmeta] at hnone
    simp at hnone
  persisted bytes w' hb hp := by
    rw [hmeta, Option.some.injEq] at hb
    rw [← hb, hJ.roundTrip] at hp
    rw [written_wrote, Except.ok.inj hp]
  listed w' hw' := by
    rw [written_wrote, Option.some.injEq] at hw'
    subst hw'
    exact hw.mono fun m hm => List.mem_cons_of_mem _ hm

/-- An insert of `r` that returned `Ok`. -/
theorem Disk.inserted {files files' : Dir E} {h : List (Mark F)} (hd : Disk M J files h)
    {r : Tenant.Record F}
    (hstored : M.stored files'.engine =
      Function.update (M.stored files.engine) r.recordId.val (some r.embedding))
    (hmarks : indexExists files'.engine = true) (hmeta : files'.metaJson = files.metaJson) :
    Disk M J files' (.inserted r :: h) where
  stored := by rw [hstored, hd.stored, latest_inserted]
  marks _ := hmarks
  unwritten hn := hd.unwritten (hmeta ▸ hn)
  persisted bytes w hb hp := hd.persisted bytes w (hmeta ▸ hb) hp
  listed w hw := (hd.listed w hw).mono fun m hm => List.mem_cons_of_mem _ hm

/-- The records after an insert of `r` are still listed. -/
theorem Listed.inserted {h : List (Mark F)} {w : MetadataSidecar} (hw : Listed h w)
    (r : Tenant.Record F) :
    Listed (.inserted r :: h)
      { w with records := Keyed.upsert RecordEntry.recordId r.entry w.records } := by
  refine ⟨Keyed.nodup_upsert _ hw.nodup, ?_⟩
  intro e he
  rcases Keyed.mem_upsert _ he with rfl | he'
  · exact ⟨r, List.mem_cons_self, rfl⟩
  · obtain ⟨r', hr', hre⟩ := hw.entry e he'
    exact ⟨r', List.mem_cons_of_mem _ hr', hre⟩

/-- The records after a delete are still listed. -/
theorem Listed.removed {h : List (Mark F)} {w : MetadataSidecar} (hw : Listed h w) (id : UInt64) :
    Listed h { w with records := Keyed.remove RecordEntry.recordId id w.records } :=
  ⟨Keyed.nodup_remove _ hw.nodup, fun e he =>
    hw.entry e ((Keyed.mem_remove RecordEntry.recordId).1 he).1⟩

end Invariant

/-! ## What one operation does -/

section Transitions

open History

variable (M : E.Model) (J : SerdeJson)

/-- What an operation can do to a session, in terms of the model of the engine. -/
inductive Trans (s : Session E) : Op E → Session E → Prop
  -- an open while a handle is open, a call without one, or a refused call of a read-only handle
  | idle {o : Op E} (hdel : ∀ id t, o = .delete id → s.handle = some t → t.readOnly = true) :
      Trans s o s
  -- an open that failed; only its first write of `meta.json` can be cut short
  | failed {o : Op E} {files' : Dir E} (hopen : o.isOpen = true) (hnone : s.handle = none)
      (hkeep : Tenant.KeepsStored M s.files files')
      (hmeta : files'.metaJson = s.files.metaJson ∨ s.files.metaJson = none ∧
        ∃ w n, n < (J.toVec w).length ∧ files'.metaJson = some ((J.toVec w).take n)) :
      Trans s o { s with files := files' }
  -- an open that read the sidecar
  | loaded {o : Op E} {files' : Dir E} {t : Tenant E} {bytes : Bytes} (hopen : o.isOpen = true)
      (hnone : s.handle = none) (hkeep : Tenant.KeepsStored M s.files files')
      (hatt : M.attached files'.engine t.inner.index) (hold : s.files.metaJson = some bytes)
      (hparse : J.fromSlice bytes = .ok t.inner.sidecar) (hmeta : files'.metaJson = some bytes) :
      Trans s o { s with files := files', handle := some t }
  -- an open without `meta.json`: it wrote the empty sidecar
  | fresh {o : Op E} {files' : Dir E} {t : Tenant E} {tenantId : TenantId} {embeddingDim : UInt32}
      (hopen : o.isOpen = true) (hnone : s.handle = none)
      (hkeep : Tenant.KeepsStored M s.files files') (hatt : M.attached files'.engine t.inner.index)
      (hold : s.files.metaJson = none) (hempty : t.inner.sidecar = .empty tenantId embeddingDim)
      (hro : t.readOnly = false)
      (hmeta : files'.metaJson = some (J.toVec t.inner.sidecar)) :
      Trans s o ⟨files', some t, .wrote t.inner.sidecar :: s.history⟩
  -- a failed insert or a consolidation: the engine may rewrite its files, the vectors stay
  | index {o : Op E} {files' : Dir E} {t t' : Tenant E} (hdel : ∀ id, o ≠ .delete id)
      (ht : s.handle = some t) (hmeta : files'.metaJson = s.files.metaJson)
      (hatt : M.attached files'.engine t'.inner.index)
      (hvec : M.vectors t'.inner.index = M.vectors t.inner.index)
      (hsidecar : t'.inner.sidecar = t.inner.sidecar) (hro : t'.readOnly = t.readOnly) :
      Trans s o { s with files := files', handle := some t' }
  | inserted {env : E.Env} {r : Tenant.Record F} {files' : Dir E} {t t' : Tenant E}
      (ht : s.handle = some t) (hmeta : files'.metaJson = s.files.metaJson)
      (hatt : M.attached files'.engine t'.inner.index)
      (hvec : M.vectors t'.inner.index =
        Function.update (M.vectors t.inner.index) r.recordId.val (some r.embedding))
      (hsidecar : t'.inner.sidecar = { t.inner.sidecar with
        records := Keyed.upsert RecordEntry.recordId r.entry t.inner.sidecar.records })
      (hro : t'.readOnly = false) :
      Trans s (.insert env r) ⟨files', some t', .inserted r :: s.history⟩
  | removed {id : RecordId} {t t' : Tenant E} (ht : s.handle = some t) (hro : t.readOnly = false)
      (hindex : t'.inner.index = t.inner.index)
      (hsidecar : t'.inner.sidecar = { t.inner.sidecar with
        records := Keyed.remove RecordEntry.recordId id.val t.inner.sidecar.records })
      (hro' : t'.readOnly = false) :
      Trans s (.delete id) { s with handle := some t' }
  -- a flush that completed, alone or inside a snapshot
  | wrote {o : Op E} {files' : Dir E} {t : Tenant E} (hdel : ∀ id, o ≠ .delete id)
      (ht : s.handle = some t) (hro : t.readOnly = false)
      (hengine : files'.engine = s.files.engine)
      (hmeta : files'.metaJson = some (J.toVec t.inner.sidecar)) :
      Trans s o { s with files := files', history := .wrote t.inner.sidecar :: s.history }
  -- a flush that failed; when it stopped after the truncation the file is a proper prefix
  | unwritten {o : Op E} {files' : Dir E} {t : Tenant E} (hdel : ∀ id, o ≠ .delete id)
      (ht : s.handle = some t) (hro : t.readOnly = false)
      (hengine : files'.engine = s.files.engine)
      (hmeta : files'.metaJson = s.files.metaJson ∨
        ∃ n < (J.toVec t.inner.sidecar).length,
          files'.metaJson = some ((J.toVec t.inner.sidecar).take n)) :
      Trans s o { s with files := files' }
  | closed : Trans s .close { s with handle := none }

variable {M J}

theorem trans_open {s : Session E} {dir : PathBuf} {env : OpenEnv E} {tenantId : TenantId}
    {embeddingDim : UInt32} (hnone : s.handle = none) :
    Trans M J s (.open env tenantId embeddingDim)
      (s.opened (Tenant.open J env dir s.files tenantId embeddingDim)) := by
  generalize ho : Tenant.open J env dir s.files tenantId embeddingDim = o
  obtain ⟨files', res⟩ := o
  cases res with
  | error e =>
    have hfail := Tenant.open_error M ho
    apply Trans.failed rfl hnone hfail.toKeepsStored
    -- the only write of a failing open is the empty sidecar of a directory that had none
    rcases hfail.metaJson with hsame | ⟨hold, n, hn, hcut⟩
    · exact Or.inl hsame
    · exact Or.inr ⟨hold, _, n, hn, hcut⟩
  | ok t =>
    have hopened := Tenant.open_ok M ho
    have hkeep : Tenant.KeepsStored M s.files files' :=
      ⟨(M.durable hopened.attached).trans hopened.vectors, fun _ => M.marks hopened.attached⟩
    cases hm : s.files.metaJson with
    | some bytes =>
      obtain ⟨hparse, hmeta⟩ := hopened.loaded bytes hm
      simp only [opened, hm, Option.isNone_some, Bool.false_eq_true, if_false]
      exact Trans.loaded rfl hnone hkeep hopened.attached hm hparse hmeta
    | none =>
      obtain ⟨hempty, hmeta⟩ := hopened.fresh hm
      simp only [opened, hm, Option.isNone_none, if_true]
      have hrw : t.readOnly = false := by
        rw [hopened.handle]
        rfl
      exact Trans.fresh rfl hnone hkeep hopened.attached hm hempty hrw hmeta

theorem trans_flushed {s : Session E} {t : Tenant E} (ht : s.handle = some t) {o : Op E}
    (hdel : ∀ id, o ≠ .delete id) (w : WriteOutcome) :
    Trans M J s o (s.flushed t (t.flush J w s.files)) := by
  rcases Tenant.flush_cases J w s.files t with ⟨hro, h⟩ | ⟨hro, h⟩ | ⟨hro, content, e, h, hmeta⟩
  · simp only [h, flushed, hro, if_true]
    exact Trans.idle fun id t' ho _ => absurd ho (hdel id)
  · simp only [h, flushed, hro, Bool.false_eq_true, if_false]
    exact Trans.wrote hdel ht hro rfl rfl
  · simp only [h, flushed]
    exact Trans.unwritten hdel ht hro rfl hmeta

theorem trans_openReadonly {s : Session E} {dir : PathBuf} {env : OpenEnv E}
    (hnone : s.handle = none) :
    Trans M J s (.openReadonly env)
      (s.openedReadonly (Tenant.openReadonlyAt J env dir s.files)) := by
  generalize ho : Tenant.openReadonlyAt J env dir s.files = o
  obtain ⟨files', res⟩ := o
  obtain ⟨hkeep, hmeta, hok⟩ := Tenant.openReadonlyAt_cases M ho
  cases res with
  | error e => exact Trans.failed rfl hnone hkeep (Or.inl hmeta)
  | ok t =>
    obtain ⟨-, hatt, -, bytes, hold, hparse⟩ := hok t rfl
    exact Trans.loaded rfl hnone hkeep hatt hold hparse (hmeta.trans hold)

theorem trans_insert {s : Session E} {dir : PathBuf} {t : Tenant E} (ht : s.handle = some t)
    (hatt : M.attached s.files.engine t.inner.index) (env : E.Env) (r : Tenant.Record F) :
    Trans M J s (.insert env r) (step J dir s (.insert env r)) := by
  simp only [step, ht, Tenant.insert_eq]
  generalize hins : Tenant.insertState env s.files t r = o
  obtain ⟨files', t', res⟩ := o
  obtain ⟨hmeta, hatt', hcase⟩ := Tenant.insertState_cases M hatt hins
  rcases hcase with ⟨⟨e, rfl⟩, ⟨index, rfl⟩, hvec⟩ | ⟨rfl, hro, hvec, index, rfl⟩
  · exact Trans.index (by simp) ht hmeta hatt' hvec rfl rfl
  · exact Trans.inserted ht hmeta hatt' hvec rfl hro

theorem trans_delete {s : Session E} {dir : PathBuf} {t : Tenant E} (ht : s.handle = some t)
    (id : RecordId) : Trans M J s (.delete id) (step J dir s (.delete id)) := by
  simp only [step, ht]
  obtain ⟨hinner, hreadOnly⟩ := Tenant.delete_inner t id
  rcases Tenant.deleteState_cases t id with ⟨hro, hdel⟩ | ⟨hro, hdel⟩
  · have hsame : { s with handle := some (t.delete id).1 } = s := by
      simp only [Tenant.delete, hdel, ← ht]
    rw [hsame]
    apply Trans.idle
    intro id' t' _ ht'
    rw [ht, Option.some.injEq] at ht'
    rw [← ht', hro]
  · apply Trans.removed ht hro
    · rw [hinner, hdel]
      rfl
    · rw [hinner, hdel]
      rfl
    · rw [hreadOnly, hdel]
      exact hro

theorem trans_consolidate {s : Session E} {dir : PathBuf} {t : Tenant E} (ht : s.handle = some t)
    (hatt : M.attached s.files.engine t.inner.index) (env : E.Env) :
    Trans M J s (.consolidate env) (step J dir s (.consolidate env)) := by
  simp only [step, ht]
  generalize hcon : Tenant.consolidate env s.files t = o
  obtain ⟨files', t', res⟩ := o
  obtain ⟨hmeta, hatt', ⟨index, rfl⟩, hvec⟩ := Tenant.consolidate_cases M hatt hcon
  exact Trans.index (by simp) ht hmeta hatt' hvec rfl rfl

/-- To the tenant directory a snapshot is a flush: the copy writes to the destination. -/
theorem trans_snapshot {s : Session E} {dir : PathBuf} {t : Tenant E} (ht : s.handle = some t)
    (w : WriteOutcome) (env : Tenant.CopyEnv) (dest : Dir E) :
    Trans M J s (.snapshot w env dest) (step J dir s (.snapshot w env dest)) := by
  simp only [step, ht]
  cases hmk : env.createDirAll with
  | some e => exact Trans.idle fun id t' ho _ => by simp at ho
  | none =>
    have hfiles : (t.snapshot J w env s.files dest).1 = (t.flush J w s.files).1 := by
      rw [Tenant.snapshot_files, hmk]
    have hflushed : (s.flushed t (t.flush J w s.files)).files = (t.flush J w s.files).1 := by
      obtain ⟨files', res⟩ := t.flush J w s.files
      cases res <;> rfl
    have hsame : { s.flushed t (t.flush J w s.files) with
        files := (t.snapshot J w env s.files dest).1 } = s.flushed t (t.flush J w s.files) := by
      rw [hfiles, ← hflushed]
    rw [hsame]
    exact trans_flushed ht (by simp) w

/-- `Trans` lists everything an operation can do. -/
theorem step_trans {s : Session E} (hs : Inv M J s) (dir : PathBuf) (o : Op E) :
    Trans M J s o (step J dir s o) := by
  cases hh : s.handle with
  | none =>
    -- without a handle every call but an open leaves the session as it is
    have hidle : ∀ o : Op E, Trans M J s o s := by
      intro o
      apply Trans.idle
      intro id t _ ht
      simp [hh] at ht
    cases o with
    | «open» env tenantId embeddingDim =>
      simp only [step, hh]
      exact trans_open hh
    | openReadonly env =>
      simp only [step, hh]
      exact trans_openReadonly hh
    | close => exact Trans.closed
    | insert env r => simpa only [step, hh] using hidle _
    | delete id => simpa only [step, hh] using hidle _
    | flush w => simpa only [step, hh] using hidle _
    | consolidate env => simpa only [step, hh] using hidle _
    | snapshot w env dest => simpa only [step, hh] using hidle _
  | some t =>
    -- the engine's laws hold for an attached handle only
    have hatt : M.attached s.files.engine t.inner.index := (hs.held t hh).attached
    cases o with
    | «open» env tenantId embeddingDim =>
      simp only [step, hh]
      exact Trans.idle fun id t' ho _ => by simp at ho
    | openReadonly env =>
      simp only [step, hh]
      exact Trans.idle fun id t' ho _ => by simp at ho
    | close => exact Trans.closed
    | insert env r => exact trans_insert hh hatt env r
    | delete id => exact trans_delete hh id
    | flush w =>
      simp only [step, hh]
      exact trans_flushed hh (by simp) w
    | consolidate env => exact trans_consolidate hh hatt env
    | snapshot w env dest => exact trans_snapshot hh w env dest

/-! ## The invariant along a run -/

theorem Trans.inv (hJ : J.Laws) {s s' : Session E} {o : Op E} (h : Trans M J s o s')
    (hs : Inv M J s) : Inv M J s' := by
  have hd := hs.disk
  cases h with
  | idle _ => exact hs
  | failed _ hnone hkeep hmeta =>
    refine ⟨?_, fun t ht => by simp [hnone] at ht⟩
    rcases hmeta with hsame | ⟨-, w, n, hn, hcut⟩
    · exact hd.keep hkeep hsame
    · exact hd.torn hJ hkeep hn hcut
  | loaded _ _ hkeep hatt hold hparse hmeta =>
    refine ⟨hd.keep hkeep (hmeta.trans hold.symm), ?_⟩
    intro t ht
    cases ht
    exact ⟨hatt, hd.listed _ (hd.persisted _ _ hold hparse), fun _ => ⟨_, hmeta, hparse⟩⟩
  | @fresh o files' t tenantId embeddingDim _ _ hkeep hatt _ hempty hro hmeta =>
    have hlisted : Listed s.history t.inner.sidecar :=
      hempty ▸ listed_empty s.history tenantId embeddingDim
    refine ⟨hd.wrote hJ hkeep hlisted hmeta, ?_⟩
    intro t ht
    cases ht
    exact ⟨hatt, hlisted.mono fun m hm => List.mem_cons_of_mem _ hm, by simp [hro]⟩
  | index _ ht hmeta hatt hvec hsidecar hro =>
    have hheld := hs.held _ ht
    -- the handle served what was stored before, so the files hold the same vectors after
    have hstored := (M.durable hatt).trans (hvec.trans (M.durable hheld.attached).symm)
    refine ⟨hd.keep ⟨hstored, fun _ => M.marks hatt⟩ hmeta, ?_⟩
    intro t ht'
    cases ht'
    refine ⟨hatt, hsidecar ▸ hheld.listed, ?_⟩
    intro hview
    rw [hmeta, hsidecar]
    exact hheld.view (hro ▸ hview)
  | inserted ht hmeta hatt hvec hsidecar hro =>
    have hheld := hs.held _ ht
    have hstored := (M.durable hatt).trans hvec
    rw [← M.durable hheld.attached] at hstored
    refine ⟨hd.inserted hstored (M.marks hatt) hmeta, ?_⟩
    intro t ht'
    cases ht'
    exact ⟨hatt, hsidecar ▸ hheld.listed.inserted _, by simp [hro]⟩
  | removed ht _ hindex hsidecar hro =>
    have hheld := hs.held _ ht
    refine ⟨hd, ?_⟩
    intro t ht'
    cases ht'
    exact ⟨hindex ▸ hheld.attached, hsidecar ▸ hheld.listed.removed _, by simp [hro]⟩
  | @wrote o files' t _ ht hro hengine hmeta =>
    have hheld := hs.held _ ht
    have hkeep : Tenant.KeepsStored M s.files files' := ⟨by rw [hengine], by simp [hengine]⟩
    refine ⟨hd.wrote hJ hkeep hheld.listed hmeta, ?_⟩
    intro t' ht'
    cases ht.symm.trans ht'
    exact ⟨hengine ▸ hheld.attached, hheld.listed.mono fun m hm => List.mem_cons_of_mem _ hm,
      by simp [hro]⟩
  -- the handle is untouched here: only the file on disk may have been torn
  | @unwritten o files' t _ ht hro hengine hmeta =>
    have hheld := hs.held _ ht
    have hkeep : Tenant.KeepsStored M s.files files' := ⟨by rw [hengine], by simp [hengine]⟩
    refine ⟨?_, ?_⟩
    · rcases hmeta with hsame | ⟨n, hn, hcut⟩
      · exact hd.keep hkeep hsame
      · exact hd.torn hJ hkeep hn hcut
    · intro t' ht'
      cases ht.symm.trans ht'
      exact ⟨hengine ▸ hheld.attached, hheld.listed, by simp [hro]⟩
  | closed => exact ⟨hd, fun t ht => by simp at ht⟩

theorem step_inv (hJ : J.Laws) (dir : PathBuf) {s : Session E} (hs : Inv M J s) (o : Op E) :
    Inv M J (step J dir s o) :=
  (step_trans hs dir o).inv hJ hs

theorem init_inv : Inv M J (init : Session E) where
  disk := {
    stored := M.absent rfl
    marks := fun ⟨r, hr⟩ => by simp [init] at hr
    unwritten := fun _ => rfl
    persisted := fun bytes w hb _ => by simp [init, Dir.fresh] at hb
    listed := fun w hw => by simp [init] at hw }
  held := fun t ht => by simp [init] at ht

/-- The session after the operations, from a directory without files. -/
def runs (J : SerdeJson) (dir : PathBuf) (ops : List (Op E)) : Session E :=
  Runs.run (step J dir) init ops

theorem runs_inv (hJ : J.Laws) (dir : PathBuf) (ops : List (Op E)) : Inv M J (runs J dir ops) := by
  have hstep : ∀ s o, Inv M J s → Inv M J (step J dir s o) := fun s o hs => step_inv hJ dir hs o
  exact Runs.run_invariant (step J dir) hstep init_inv ops

end Transitions

end Session

end SkegRigging
