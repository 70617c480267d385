import SkegRigging.Adapter.Copy
import SkegRigging.Adapter.Session
import SkegRigging.Reference.Engine
import SkegRigging.Reference.Json

/-!
# A snapshot among other calls

`snapshot` flushes under the inner lock and copies the files without it, so other threads may
insert, delete, flush and consolidate between any two file copies. The copy is then a mixture: an
overwrite between the flush and the copy of the engine files gives the snapshot the new vector under
the old entry.

`Undisturbed` says which steps do no harm: while engine files are still to be copied, no insert and
no consolidation, and while `meta.json` is, no flush of a sidecar whose vectors are not those of the
snapshot's own flush. A snapshot whose steps are all undisturbed restores to the content the source
had at one moment of the call (`snapshot_pointInTime`).
-/

set_option autoImplicit false

namespace SkegRigging

open DiskVamanaIndex History Tenant

namespace Snapshot

variable {F S : Type} {E : DiskVamanaIndex F S}

/-! ## The copy phase -/

/-- A snapshot after its flush: the source, the files still to be copied, the destination, whether a
copy failed, and every value the source tenant has had since the call. -/
structure Snap (E : DiskVamanaIndex F S) where
  source : Session E
  todo : List DirEntry
  dest : Dir E
  failed : Bool
  seen : List (Tenant E)

/-- The next copy of the snapshot, or a call of another thread on the same tenant. -/
inductive Act (E : DiskVamanaIndex F S)
  | copy
  | insert (env : E.Env) (r : Tenant.Record F)
  | delete (id : RecordId)
  | flush (o : WriteOutcome)
  | consolidate (env : E.Env)

section Step

variable (J : SerdeJson) (dir : PathBuf)

/-- A call of another thread. -/
def call (s : Snap E) (o : Session.Op E) : Snap E :=
  let source := Session.step J dir s.source o
  { s with source, seen := source.handle.toList ++ s.seen }

def step (s : Snap E) : Act E → Snap E
  -- the loop of `copy_dir_contents`: the first error ends it
  | .copy =>
    match s.failed, s.todo with
    | false, entry :: todo =>
      match copyFile s.source.files s.dest entry with
      | some dest => { s with dest, todo }
      | none => { s with failed := true }
    | _, _ => s
  | .insert env r => call J dir s (.insert env r)
  | .delete id => call J dir s (.delete id)
  | .flush o => call J dir s (.flush o)
  | .consolidate env => call J dir s (.consolidate env)

/-- The snapshot of the open tenant `t`, right after its flush, when `read_dir` will enumerate
`order`. -/
def begin (s : Session E) (t : Tenant E) (o : WriteOutcome) (order : List DirEntry) : Snap E :=
  { source := s.flushed t (t.flush J o s.files)
    todo := order
    dest := Dir.fresh
    failed := false
    seen := [t] }

/-- All files were copied: the snapshot returns `Ok`. -/
def Completed (s : Snap E) : Prop := s.failed = false ∧ s.todo = []

/-- The end of a snapshot among the steps `acts`. -/
def snapshotRun (s : Session E) (t : Tenant E) (o : WriteOutcome) (order : List DirEntry)
    (acts : List (Act E)) : Snap E :=
  Runs.run (step J dir) (begin J s t o order) acts

/-- Without other threads the copies are those of `copy_dir_contents`. -/
theorem run_copies {s : Snap E} (hfailed : s.failed = false) :
    (copyDirContents none s.source.files s.todo s.dest).1 =
        (Runs.run (step J dir) s (List.replicate s.todo.length .copy)).dest ∧
      ((copyDirContents none s.source.files s.todo s.dest).2 = .ok () ↔
        Completed (Runs.run (step J dir) s (List.replicate s.todo.length .copy))) := by
  obtain ⟨source, todo, dest, failed, seen⟩ := s
  cases hfailed
  induction todo generalizing dest with
  | nil => exact ⟨rfl, iff_of_true rfl ⟨rfl, rfl⟩⟩
  | cons entry todo ih =>
    rw [List.length_cons, List.replicate_succ, Runs.run_cons]
    cases hcopy : copyFile source.files dest entry with
    | none =>
      have hstep : step J dir ⟨source, entry :: todo, dest, false, seen⟩ .copy =
          ⟨source, entry :: todo, dest, true, seen⟩ := by
        simp only [step, hcopy]
      -- a failed snapshot copies nothing more
      have hstuck : ∀ n, Runs.run (step J dir) ⟨source, entry :: todo, dest, true, seen⟩
          (List.replicate n .copy) = ⟨source, entry :: todo, dest, true, seen⟩ := by
        intro n
        induction n with
        | zero => rfl
        | succ n ihn => exact ihn
      rw [hstep, hstuck]
      simp [copyDirContents, hcopy, Completed]
    | some dest' =>
      have hstep : step J dir ⟨source, entry :: todo, dest, false, seen⟩ .copy =
          ⟨source, todo, dest', false, seen⟩ := by
        simp only [step, hcopy]
      rw [hstep]
      simpa only [copyDirContents, hcopy] using ih dest'

end Step

/-- What a tenant holds under an id. -/
structure Content (F : Type) where
  vector : List F
  shareable : Bool
  tags : List String
  payload : Bytes
  deriving DecidableEq

/-- The content of a tenant, by id. -/
def contentOf (M : E.Model) (t : Tenant E) (id : UInt64) : Option (Content F) :=
  (t.inner.sidecar.get ⟨id⟩).bind fun e =>
    (M.vectors t.inner.index id).map fun v => ⟨v, e.shareable, e.tags, e.payload⟩

/-- All engine files were copied. -/
def EnginesCopied (s : Snap E) : Prop := ∀ entry ∈ s.todo, entry = .metaJson

instance (s : Snap E) : Decidable (EnginesCopied s) :=
  inferInstanceAs (Decidable (∀ entry ∈ s.todo, entry = .metaJson))

/-- A step that does not disturb a snapshot whose flush came after the history `h`. -/
def Undisturbed (h : List (Mark F)) (s : Snap E) : Act E → Prop
  | .copy => True
  | .insert _ _ => EnginesCopied s
  | .delete _ => True
  | .flush _ => .metaJson ∈ s.todo → ∀ t ∈ s.source.handle, ∀ e ∈ t.inner.sidecar.records,
      latest s.source.history e.recordId = latest h e.recordId
  | .consolidate _ => EnginesCopied s

instance [DecidableEq F] (h : List (Mark F)) (s : Snap E) (act : Act E) :
    Decidable (Undisturbed h s act) := by
  cases act <;> unfold Undisturbed <;> infer_instance

/-! ## What the calls of other threads change -/

section Calls

variable {M : E.Model} {J : SerdeJson} {dir : PathBuf} {s : Session E} {t : Tenant E}

/-- What every call leaves: the invariant of the session, and an open handle. -/
structure Held (M : E.Model) (J : SerdeJson) (s : Session E) : Prop where
  inv : Session.Inv M J s
  handle : ∃ t, s.handle = some t

theorem insert_calls (hJ : J.Laws) (hs : Session.Inv M J s) (ht : s.handle = some t) (env : E.Env)
    (r : Tenant.Record F) : Held M J (Session.step J dir s (.insert env r)) ∧
      (Session.step J dir s (.insert env r)).files.metaJson = s.files.metaJson := by
  -- the session invariant is kept by every operation, so only `meta.json` needs a look
  have hinv := Session.step_inv hJ dir hs (.insert env r)
  have hatt := (hs.held t ht).attached
  simp only [Session.step, ht, Tenant.insert_eq] at hinv ⊢
  generalize hins : Tenant.insertState env s.files t r = o at hinv ⊢
  obtain ⟨files', t', res⟩ := o
  obtain ⟨hmeta, -, -⟩ := Tenant.insertState_cases M hatt hins
  cases res with
  | error e => exact ⟨⟨hinv, _, rfl⟩, hmeta⟩
  | ok u => exact ⟨⟨hinv, _, rfl⟩, hmeta⟩

theorem consolidate_calls (hJ : J.Laws) (hs : Session.Inv M J s) (ht : s.handle = some t)
    (env : E.Env) : Held M J (Session.step J dir s (.consolidate env)) ∧
      (Session.step J dir s (.consolidate env)).files.metaJson = s.files.metaJson := by
  have hinv := Session.step_inv hJ dir hs (.consolidate env)
  have hatt := (hs.held t ht).attached
  simp only [Session.step, ht] at hinv ⊢
  generalize hcon : Tenant.consolidate env s.files t = o at hinv ⊢
  obtain ⟨files', t', res⟩ := o
  obtain ⟨hmeta, -, -⟩ := Tenant.consolidate_cases M hatt hcon
  exact ⟨⟨hinv, _, rfl⟩, hmeta⟩

theorem delete_calls (hJ : J.Laws) (hs : Session.Inv M J s) (ht : s.handle = some t)
    (id : RecordId) : Held M J (Session.step J dir s (.delete id)) ∧
      (Session.step J dir s (.delete id)).files = s.files := by
  have hinv := Session.step_inv hJ dir hs (.delete id)
  simp only [Session.step, ht] at hinv ⊢
  exact ⟨⟨hinv, _, rfl⟩, trivial⟩

/-- A flush leaves the engine files and the handle; the sidecar on disk afterwards, if there is one,
is the old one or that of the handle. -/
theorem flush_calls (hJ : J.Laws) (hs : Session.Inv M J s) (ht : s.handle = some t)
    (o : WriteOutcome) : Held M J (Session.step J dir s (.flush o)) ∧
      (Session.step J dir s (.flush o)).files.engine = s.files.engine ∧
      ∀ w, diskSidecar J (Session.step J dir s (.flush o)).files = some w →
        diskSidecar J s.files = some w ∨ w = t.inner.sidecar := by
  have hinv := Session.step_inv hJ dir hs (.flush o)
  have hstep : Session.step J dir s (.flush o) = s.flushed t (t.flush J o s.files) := by
    simp only [Session.step, ht]
  rw [hstep] at hinv ⊢
  rcases Tenant.flush_cases J o s.files t with ⟨hro, h⟩ | ⟨hro, h⟩ | ⟨hro, content, e, h, hmeta⟩
  · rw [h] at hinv ⊢
    exact ⟨⟨hinv, t, ht⟩, rfl, fun w hw => Or.inl hw⟩
  · rw [h] at hinv ⊢
    refine ⟨⟨hinv, t, ht⟩, rfl, fun w hw => Or.inr ?_⟩
    rw [Session.flushed, diskSidecar_of_parse rfl (hJ.roundTrip _)] at hw
    exact (Option.some.inj hw).symm
  · rw [h] at hinv ⊢
    refine ⟨⟨hinv, t, ht⟩, rfl, fun w hw => Or.inl ?_⟩
    -- a torn flush leaves no sidecar on disk, so there is nothing to have been seen
    rcases hmeta with hsame | ⟨n, hn, hcut⟩
    · rw [Session.flushed, diskSidecar, hsame] at hw
      exact hw
    · rw [Session.flushed, diskSidecar_torn hJ hn hcut] at hw
      simp at hw

end Calls

/-! ## The invariant of the copy phase -/

section Invariant

variable (M : E.Model) (J : SerdeJson)

/-- `w` was the sidecar of the tenant at a moment of the call at which the vectors of its ids were
`vectors`. -/
def Moment (vectors : UInt64 → Option (List F)) (seen : List (Tenant E)) (w : MetadataSidecar) :
    Prop :=
  ∃ t ∈ seen, t.inner.sidecar = w ∧ ∀ e ∈ w.records,
    M.vectors t.inner.index e.recordId = vectors e.recordId

/-- During the copies of a snapshot that began with the engine files `base` and the history `h`. -/
structure CopyInv (base : E.Files) (h : List (Mark F)) (s : Snap E) : Prop where
  inv : Session.Inv M J s.source
  handle : ∃ t ∈ s.seen, s.source.handle = some t
  nodup : s.todo.Nodup
  engine : ¬ EnginesCopied s → s.source.files.engine = base
  copied : ∀ name, s.dest.engine name = if .engine name ∈ s.todo then none else base name
  disk : .metaJson ∈ s.todo → ∀ w, diskSidecar J s.source.files = some w →
    Moment M (latest h) s.seen w
  dest : ∀ w, diskSidecar J s.dest = some w → Moment M (latest h) s.seen w

variable {M J}

theorem Moment.mono {vectors : UInt64 → Option (List F)} {seen : List (Tenant E)}
    {w : MetadataSidecar} (h : Moment M vectors seen w) (ts : List (Tenant E)) :
    Moment M vectors (ts ++ seen) w := by
  obtain ⟨t, ht, hw⟩ := h
  exact ⟨t, List.mem_append_right ts ht, hw⟩

/-- A call that leaves what is still to be copied keeps the invariant. -/
theorem CopyInv.call {base : E.Files} {h : List (Mark F)} {s : Snap E} {dir : PathBuf}
    {o : Session.Op E} (hs : CopyInv M J base h s)
    (hcalls : Held M J (Session.step J dir s.source o))
    (hengine : ¬ EnginesCopied s →
      (Session.step J dir s.source o).files.engine = s.source.files.engine)
    (hdisk : .metaJson ∈ s.todo → ∀ w,
      diskSidecar J (Session.step J dir s.source o).files = some w →
        diskSidecar J s.source.files = some w ∨ Moment M (latest h) s.seen w) :
    CopyInv M J base h (Snapshot.call J dir s o) := by
  obtain ⟨t, ht⟩ := hcalls.handle
  have hseen : (Snapshot.call J dir s o).seen = [t] ++ s.seen := by
    simp only [Snapshot.call, ht, Option.toList_some]
  refine ⟨hcalls.inv, ⟨t, ?_, ht⟩, hs.nodup, ?_, hs.copied, ?_, ?_⟩
  · rw [hseen]
    exact List.mem_cons_self
  · intro hleft
    exact (hengine hleft).trans (hs.engine hleft)
  · intro hmeta w hw
    rw [hseen]
    -- a moment of the call stays one when the list of seen values grows
    rcases hdisk hmeta w hw with hold | hnow
    · exact (hs.disk hmeta w hold).mono [t]
    · exact hnow.mono [t]
  · intro w hw
    rw [hseen]
    exact (hs.dest w hw).mono [t]

/-- Copying the next file keeps the invariant. -/
theorem CopyInv.copy {base : E.Files} {h : List (Mark F)} {s : Snap E} {dir : PathBuf}
    (hs : CopyInv M J base h s) : CopyInv M J base h (step J dir s .copy) := by
  rw [Snapshot.step]
  split
  · rename_i entry todo hfailed htodo
    cases hcopy : copyFile s.source.files s.dest entry with
    | none => exact ⟨hs.inv, hs.handle, hs.nodup, hs.engine, hs.copied, hs.disk, hs.dest⟩
    | some dest =>
      have hcontent := copyFile_some hcopy
      have hnodup := hs.nodup
      rw [htodo, List.nodup_cons] at hnodup
      refine ⟨hs.inv, hs.handle, hnodup.2, ?_, ?_, ?_, ?_⟩
      · intro hleft
        -- what is left now was left before, so the engine files are still those of the start
        apply hs.engine
        intro hall
        apply hleft
        intro e he
        apply hall e
        rw [htodo]
        exact List.mem_cons_of_mem _ he
      · intro name
        by_cases hname : .engine name = entry
        · -- the file that is copied now: the source still has the files of the start
          subst hname
          have hleft : ¬ EnginesCopied s := fun hall => by
            have hmeta := hall (.engine name) (by rw [htodo]; exact List.mem_cons_self)
            simp at hmeta
          have hsrc : dest.engine name = s.source.files.engine name :=
            content_engine_inj (by rw [hcontent, if_pos rfl])
          rw [hsrc, hs.engine hleft, if_neg hnodup.1]
        · have hsame : dest.engine name = s.dest.engine name :=
            content_engine_inj (by rw [hcontent, if_neg hname])
          rw [hsame, hs.copied name, htodo]
          simp [hname]
      · intro hmeta w hw
        refine hs.disk ?_ w hw
        rw [htodo]
        exact List.mem_cons_of_mem _ hmeta
      · intro w hw
        -- only the copy of `meta.json` changes the sidecar of the destination
        by_cases hentry : .metaJson = entry
        · subst hentry
          have hsrc : dest.metaJson = s.source.files.metaJson :=
            content_metaJson_inj (by rw [hcontent, if_pos rfl])
          apply hs.disk (by rw [htodo]; exact List.mem_cons_self) w
          rwa [diskSidecar, hsrc] at hw
        · have hsame : dest.metaJson = s.dest.metaJson :=
            content_metaJson_inj (by rw [hcontent, if_neg hentry])
          apply hs.dest w
          rwa [diskSidecar, hsame] at hw
  · exact hs

theorem CopyInv.step {base : E.Files} {h : List (Mark F)} {s : Snap E} {dir : PathBuf}
    (hJ : J.Laws) (hs : CopyInv M J base h s) {act : Act E} (hact : Undisturbed h s act) :
    CopyInv M J base h (Snapshot.step J dir s act) := by
  obtain ⟨t, hseen, ht⟩ := hs.handle
  cases act with
  | copy => exact hs.copy
  | insert env r =>
    obtain ⟨hcalls, hmeta⟩ := insert_calls hJ hs.inv ht env r
    -- all engine files are copied by now, so a change of theirs is not seen
    apply hs.call hcalls (fun hleft => absurd hact hleft)
    intro _ w hw
    apply Or.inl
    rwa [diskSidecar, hmeta] at hw
  | delete id =>
    obtain ⟨hcalls, hfiles⟩ := delete_calls hJ hs.inv ht id
    apply hs.call hcalls (fun _ => by rw [hfiles])
    intro _ w hw
    apply Or.inl
    rwa [hfiles] at hw
  | flush o =>
    obtain ⟨hcalls, hengine, hdisk⟩ := flush_calls hJ hs.inv ht o
    apply hs.call hcalls (fun _ => hengine)
    intro hmeta w hw
    rcases hdisk w hw with hold | rfl
    · exact Or.inl hold
    · refine Or.inr ⟨t, hseen, rfl, ?_⟩
      intro e he
      rw [hs.inv.vectors M J ht]
      exact hact hmeta t ht e he
  | consolidate env =>
    obtain ⟨hcalls, hmeta⟩ := consolidate_calls hJ hs.inv ht env
    apply hs.call hcalls (fun hleft => absurd hact hleft)
    intro _ w hw
    apply Or.inl
    rwa [diskSidecar, hmeta] at hw

/-- The invariant holds right after the flush. -/
theorem begin_inv (hJ : J.Laws) {s : Session E} (hs : Session.Inv M J s) {t : Tenant E}
    (ht : s.handle = some t) (hrw : t.readOnly = false) {o : WriteOutcome}
    (hflush : (t.flush J o s.files).2 = .ok ()) {order : List DirEntry} (hnodup : order.Nodup)
    (horder : Lists order (t.flush J o s.files).1) :
    CopyInv M J s.files.engine s.history (begin J s t o order) := by
  -- a read-write flush that succeeded wrote the sidecar in full
  have hwrote : t.flush J o s.files =
      ({ s.files with metaJson := some (J.toVec t.inner.sidecar) }, .ok ()) := by
    rcases Tenant.flush_cases J o s.files t with ⟨hro, -⟩ | ⟨-, h⟩ | ⟨-, content, e, h, -⟩
    · rw [hrw] at hro
      simp at hro
    · exact h
    · rw [h] at hflush
      simp at hflush
  have hsource : (begin J s t o order).source = Session.step J ⟨true, []⟩ s (.flush o) := by
    simp only [begin, Session.step, ht]
  have hfiles : (begin J s t o order).source.files =
      { s.files with metaJson := some (J.toVec t.inner.sidecar) } := by
    simp only [begin, hwrote, Session.flushed]
  refine ⟨?_, ⟨t, List.mem_singleton_self t, ?_⟩, hnodup, ?_, ?_, ?_, ?_⟩
  · rw [hsource]
    exact Session.step_inv hJ _ hs _
  · simp only [begin, hwrote, Session.flushed]
    exact ht
  · intro _
    rw [hfiles]
  · intro name
    have hnone : (begin J s t o order).dest.engine name = none := rfl
    rw [hnone]
    split
    · rfl
    · rename_i hout
      rw [show (begin J s t o order).todo = order from rfl, horder, hwrote] at hout
      have hbase : s.files.engine name = none := by simpa [DirEntry.isIn] using hout
      exact hbase.symm
  · intro _ w hw
    rw [hfiles, diskSidecar_of_parse rfl (hJ.roundTrip _), Option.some.injEq] at hw
    refine ⟨t, List.mem_singleton_self t, hw, ?_⟩
    intro e _
    rw [hs.vectors M J ht]
  · intro w hw
    simp [begin, diskSidecar, Dir.fresh] at hw

/-- A snapshot among calls of other threads that do not disturb it: whatever `restore_from` builds
from it has the content the source had at some moment between the call and the return. -/
theorem snapshot_pointInTime (M : E.Model) (hJ : J.Laws) (dir : PathBuf)
    (ops : List (Session.Op E)) {t : Tenant E} (ht : (Session.runs J dir ops).handle = some t)
    (hrw : t.readOnly = false) {o : WriteOutcome}
    (hflush : (t.flush J o (Session.runs J dir ops).files).2 = .ok ()) {order : List DirEntry}
    (hnodup : order.Nodup) (horder : Lists order (t.flush J o (Session.runs J dir ops).files).1)
    (acts : List (Act E))
    (hacts : Runs.EachStep (step J dir) (Undisturbed (Session.runs J dir ops).history)
      (begin J (Session.runs J dir ops) t o order) acts)
    (hdone : Completed (snapshotRun J dir (Session.runs J dir ops) t o order acts))
    {copy : CopyEnv} {env : OpenEnv E} {srcPath destPath : PathBuf} {dest' : Dir E} {t' : Tenant E}
    (hlists : Lists copy.order (snapshotRun J dir (Session.runs J dir ops) t o order acts).dest)
    (hrestore : restoreFrom J copy env srcPath destPath
      (snapshotRun J dir (Session.runs J dir ops) t o order acts).dest Dir.fresh =
        (dest', .ok t')) :
    ∃ t₁ ∈ (snapshotRun J dir (Session.runs J dir ops) t o order acts).seen,
      contentOf M t' = contentOf M t₁ := by
  have hs : Session.Inv M J (Session.runs J dir ops) := Session.runs_inv hJ dir ops
  have hinv : CopyInv M J (Session.runs J dir ops).files.engine (Session.runs J dir ops).history
      (snapshotRun J dir (Session.runs J dir ops) t o order acts) := by
    have hstep : ∀ s act, CopyInv M J (Session.runs J dir ops).files.engine
        (Session.runs J dir ops).history s → Undisturbed (Session.runs J dir ops).history s act →
          CopyInv M J (Session.runs J dir ops).files.engine (Session.runs J dir ops).history
            (step J dir s act) := fun s act hinv hact => hinv.step hJ hact
    exact Runs.run_of_step (step J dir) hstep (begin_inv hJ hs ht hrw hflush hnodup horder) hacts
  obtain ⟨hvectors, hsidecar⟩ := restoreFrom_ok M hlists hrestore
  -- with nothing left to copy, the copied engine files are those of the start
  have hengine : (snapshotRun J dir (Session.runs J dir ops) t o order acts).dest.engine =
      (Session.runs J dir ops).files.engine := by
    funext name
    rw [hinv.copied name, hdone.2, if_neg List.not_mem_nil]
  rw [hengine, hs.disk.stored] at hvectors
  -- the value whose sidecar was copied had the vectors of the start under its ids
  obtain ⟨t₁, hseen, hw, hvec⟩ := hinv.dest _ hsidecar
  refine ⟨t₁, hseen, ?_⟩
  funext id
  rw [contentOf, contentOf, hw]
  cases hget : t'.inner.sidecar.get ⟨id⟩ with
  | none => rfl
  | some e =>
    have hid : e.recordId = id := Keyed.key_of_find _ hget
    have hsame := hvec e (Keyed.mem_of_find _ hget)
    rw [hid] at hsame
    rw [Option.bind_some, Option.bind_some, hvectors, hsame]

end Invariant

/-! ## An overwrite between the flush and the copies -/

section MixedSnapshot

open Reference

/-- A record and its overwrite. -/
def before : Tenant.Record Int := ⟨⟨1⟩, [0], true, ["note"], [1]⟩

def after : Tenant.Record Int := ⟨⟨1⟩, [5], false, [], [2]⟩

/-- A source that holds the record, and its files. -/
def source : List (Session.Op engine) := [.open quiet .zero 1, .insert false before]

def listing : List DirEntry :=
  [.metaJson, .engine "tier.kind", .engine "delta.log", .engine "CURRENT"]

/-- The tenant that is open then. -/
def sourceTenant : Tenant engine :=
  handle home ((Log.empty 1).insert 1 [0]) ⟨.zero, 1, [before.entry]⟩ .zero 1

theorem source_handle : (Session.runs json home source).handle = some sourceTenant := rfl

theorem lists_listing {files : Dir engine} {log : Log} (hmeta : files.metaJson.isSome = true)
    (hengine : files.engine = writeIndex (fun _ => none) log ∨
      ∃ log', files.engine = writeIndex (writeIndex (fun _ => none) log') log) :
    Lists listing files := by
  intro e
  cases e with
  | metaJson => simp [listing, DirEntry.isIn, hmeta]
  | engine name =>
    have hname : DirEntry.engine name ∈ listing ↔
        name = "tier.kind" ∨ name = "delta.log" ∨ name = "CURRENT" := by simp [listing]
    rw [hname, DirEntry.isIn]
    rcases hengine with h | ⟨log', h⟩
    · rw [h]
      refine Iff.trans ?_ (isSome_writeIndex _ _ _).symm
      simp
    · rw [h]
      refine Iff.trans ?_ (isSome_writeIndex _ _ _).symm
      rw [isSome_writeIndex]
      simp

theorem lists_source :
    Lists listing (sourceTenant.flush json .done (Session.runs json home source).files).1 :=
  lists_listing rfl (Or.inr ⟨Log.empty 1, rfl⟩)

def restoring : CopyEnv := { createDirAll := none, order := listing, fail := none }

/-- A delete among the copies, and the overwrite after them. -/
def orderly : List (Act engine) :=
  [.copy, .delete ⟨7⟩, .copy, .copy, .copy, .insert false after]

theorem snapshot_pointInTime_example :
    ∃ dest t, restoreFrom json restoring quiet home home
        (snapshotRun json home (Session.runs json home source) sourceTenant .done listing
          orderly).dest Dir.fresh = (dest, .ok t) ∧
      ∃ t₁ ∈ (snapshotRun json home (Session.runs json home source) sourceTenant .done listing
        orderly).seen, contentOf model t = contentOf model t₁ := by
  have hacts : Runs.EachStep (step json home)
      (Undisturbed (Session.runs json home source).history)
      (begin json (Session.runs json home source) sourceTenant .done listing) orderly := by
    decide +kernel
  have hok : (restoreFrom json restoring quiet home home
      (snapshotRun json home (Session.runs json home source) sourceTenant .done listing
        orderly).dest Dir.fresh).2.isOk = true := by
    decide +kernel
  generalize hr : restoreFrom json restoring quiet home home
    (snapshotRun json home (Session.runs json home source) sourceTenant .done listing
      orderly).dest Dir.fresh = r at hok
  obtain ⟨dest, res⟩ := r
  cases res with
  | error e => simp [Except.isOk, Except.toBool] at hok
  | ok t =>
    exact ⟨dest, t, rfl, snapshot_pointInTime model json_laws home source source_handle rfl rfl
      (by decide) lists_source orderly hacts ⟨rfl, rfl⟩
      (lists_listing rfl (Or.inl rfl)) hr⟩

/-- The overwrite runs right after the flush. -/
def mixed : List (Act engine) := [.insert false after, .copy, .copy, .copy, .copy]

/-- The snapshot restores to the new vector with the old flag, tags and payload, which the source
never held together. -/
theorem snapshot_mixed :
    ¬ ∀ (ops : List (Session.Op engine)) t, (Session.runs json home ops).handle = some t →
      t.readOnly = false → ∀ o, (t.flush json o (Session.runs json home ops).files).2 = .ok () →
      ∀ order : List DirEntry, order.Nodup →
      Lists order (t.flush json o (Session.runs json home ops).files).1 →
      ∀ acts : List (Act engine),
      Completed (snapshotRun json home (Session.runs json home ops) t o order acts) →
      ∀ (copy : CopyEnv) env srcPath destPath dest' t',
      Lists copy.order (snapshotRun json home (Session.runs json home ops) t o order acts).dest →
      restoreFrom json copy env srcPath destPath
          (snapshotRun json home (Session.runs json home ops) t o order acts).dest Dir.fresh =
        (dest', .ok t') →
      ∃ t₁ ∈ (snapshotRun json home (Session.runs json home ops) t o order acts).seen,
        contentOf model t' = contentOf model t₁ := by
  intro h
  have hcontent : ((restoreFrom json restoring quiet home home
      (snapshotRun json home (Session.runs json home source) sourceTenant .done listing
        mixed).dest Dir.fresh).2.toOption.map fun t => contentOf model t 1) =
      some (some ⟨[5], true, ["note"], [1]⟩) := by
    decide +kernel
  have hnever : ∀ t₁ ∈ (snapshotRun json home (Session.runs json home source) sourceTenant .done
      listing mixed).seen, contentOf model t₁ 1 ≠ some ⟨[5], true, ["note"], [1]⟩ := by
    decide +kernel
  generalize hr : restoreFrom json restoring quiet home home
    (snapshotRun json home (Session.runs json home source) sourceTenant .done listing
      mixed).dest Dir.fresh = r at hcontent
  obtain ⟨dest, res⟩ := r
  cases res with
  | error e => simp [Except.toOption] at hcontent
  | ok t =>
    obtain ⟨t₁, hseen, hsame⟩ := h source sourceTenant source_handle rfl .done rfl listing
      (by decide) lists_source mixed ⟨rfl, rfl⟩ restoring quiet home home dest t
      (lists_listing rfl (Or.inl rfl)) hr
    have hmixed : contentOf model t 1 = some ⟨[5], true, ["note"], [1]⟩ := by
      simpa [Except.toOption] using hcontent
    rw [hsame] at hmixed
    exact hnever t₁ hseen hmixed

end MixedSnapshot

end Snapshot

end SkegRigging
