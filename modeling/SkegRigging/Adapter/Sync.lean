import SkegRigging.Adapter.Copy
import SkegRigging.Adapter.Session
import SkegRigging.Reference.Engine
import SkegRigging.Reference.Json

/-!
# The ids of the index and of the sidecar

`delete` drops the entry of an id from the sidecar and leaves its vector in the index. It is the
only operation that touches one of the two stores alone, apart from a restart without a flush, so in
runs whose closes are all flushed the two stores hold the same ids in every state exactly when no
step deletes an id that has an entry (`eachState_inSync_iff`).
-/

set_option autoImplicit false

namespace SkegRigging

open DiskVamanaIndex History Tenant

namespace Session

variable {F S : Type} {E : DiskVamanaIndex F S}

section Defs

variable (M : E.Model) (J : SerdeJson)

/-- The ids of the sidecar on disk. -/
def persistedIds (files : Dir E) : List UInt64 :=
  ((diskSidecar J files).map MetadataSidecar.ids).getD []

/-- The ids of the sidecar: that of the open handle, else the one on disk. -/
def sidecarIds (s : Session E) : List UInt64 :=
  match s.handle with
  | some t => t.inner.sidecar.ids
  | none => persistedIds J s.files

/-- An id has a vector in the index exactly if it has an entry in the sidecar. -/
def InSync (s : Session E) : Prop :=
  ∀ id, (M.stored s.files.engine id).isSome ↔ id ∈ sidecarIds J s

/-- So have the ids of every complete snapshot taken now into a directory without files. -/
def SnapshotsInSync (s : Session E) : Prop :=
  ∀ t o env files dest, s.handle = some t →
    t.snapshot J o env s.files Dir.fresh = (files, dest, .ok ()) → Tenant.Lists env.order files →
      ∀ id, (M.stored dest.engine id).isSome ↔ id ∈ persistedIds J dest

/-- A read-write handle is closed only after a flush of its sidecar. -/
def FlushedClose (s : Session E) : Op E → Prop
  | .close => ∀ t ∈ s.handle, t.readOnly = false → diskSidecar J s.files = some t.inner.sidecar
  | _ => True

/-- The step deletes no id that has an entry. -/
def DeletesNothing (s : Session E) : Op E → Prop
  | .delete id => ∀ t ∈ s.handle, t.readOnly = false → id.val ∉ t.inner.sidecar.ids
  | _ => True

instance (s : Session E) (o : Op E) : Decidable (FlushedClose J s o) := by
  cases o <;> unfold FlushedClose <;> infer_instance

instance (s : Session E) (o : Op E) : Decidable (DeletesNothing s o) := by
  cases o <;> unfold DeletesNothing <;> infer_instance

end Defs

variable {M : E.Model} {J : SerdeJson}

theorem persistedIds_of_sidecar {files : Dir E} {w : MetadataSidecar}
    (h : diskSidecar J files = some w) : persistedIds J files = w.ids := by
  rw [persistedIds, h]
  rfl

theorem persistedIds_of_none {files : Dir E} (h : diskSidecar J files = none) :
    persistedIds J files = [] := by
  rw [persistedIds, h]
  rfl

theorem deletesNothing_of_ne {s : Session E} {o : Op E} (hdel : ∀ id, o ≠ .delete id) :
    DeletesNothing s o := by
  cases o with
  | delete id => exact absurd rfl (hdel id)
  | «open» _ _ _ => trivial
  | openReadonly _ => trivial
  | insert _ _ => trivial
  | flush _ => trivial
  | consolidate _ => trivial
  | snapshot _ _ _ => trivial
  | close => trivial

theorem deletesNothing_of_isOpen {s : Session E} {o : Op E} (hopen : o.isOpen = true) :
    DeletesNothing s o :=
  deletesNothing_of_ne fun id h => by simp [h, Op.isOpen] at hopen

/-- What moves neither the stored vectors nor the ids of the sidecar keeps the two in sync. -/
theorem InSync.keep {s s' : Session E} (hsync : InSync M J s)
    (hstored : M.stored s'.files.engine = M.stored s.files.engine)
    (hids : sidecarIds J s' = sidecarIds J s) : InSync M J s' := by
  intro id
  rw [hstored, hids]
  exact hsync id

/-- An insert adds its id to both stores. -/
theorem InSync.inserted {s : Session E} (hs : Inv M J s) (hsync : InSync M J s)
    {r : Tenant.Record F} {files' : Dir E} {t t' : Tenant E} {h : List (Mark F)}
    (ht : s.handle = some t) (hatt : M.attached files'.engine t'.inner.index)
    (hvec : M.vectors t'.inner.index =
      Function.update (M.vectors t.inner.index) r.recordId.val (some r.embedding))
    (hsidecar : t'.inner.sidecar = { t.inner.sidecar with
      records := Keyed.upsert RecordEntry.recordId r.entry t.inner.sidecar.records }) :
    InSync M J ⟨files', some t', h⟩ := by
  intro id
  have hid := hsync id
  rw [M.durable (hs.held _ ht).attached] at hid
  simp only [sidecarIds, ht] at hid
  have hids : id ∈ t'.inner.sidecar.ids ↔ id = r.recordId.val ∨ id ∈ t.inner.sidecar.ids := by
    rw [hsidecar]
    exact Keyed.mem_map_key_upsert _ id r.entry t.inner.sidecar.records
  simp only [sidecarIds]
  rw [M.durable hatt, hvec, hids]
  by_cases heq : id = r.recordId.val
  · simp [heq]
  · rw [Function.update_of_ne heq, hid]
    simp [heq]

/-- A delete drops its id from the sidecar alone. -/
theorem InSync.removed_iff {s : Session E} (hsync : InSync M J s) {id : RecordId}
    {t t' : Tenant E} (ht : s.handle = some t)
    (hsidecar : t'.inner.sidecar = { t.inner.sidecar with
      records := Keyed.remove RecordEntry.recordId id.val t.inner.sidecar.records }) :
    InSync M J { s with handle := some t' } ↔ id.val ∉ t.inner.sidecar.ids := by
  have hids : ∀ k, k ∈ t'.inner.sidecar.ids ↔ k ∈ t.inner.sidecar.ids ∧ k ≠ id.val := by
    intro k
    rw [hsidecar]
    exact Keyed.mem_map_key_remove _ id.val k t.inner.sidecar.records
  have hold : ∀ k, (M.stored s.files.engine k).isSome ↔ k ∈ t.inner.sidecar.ids := by
    intro k
    have hk := hsync k
    simpa only [sidecarIds, ht] using hk
  constructor
  · -- an entry of the deleted id would leave its vector behind
    intro hsync' hmem
    have hgone := (hsync' id.val).1 ((hold id.val).2 hmem)
    exact ((hids id.val).1 hgone).2 rfl
  · intro habs k
    simp only [sidecarIds, hids]
    rw [hold]
    constructor
    · intro hk
      exact ⟨hk, fun he => habs (he ▸ hk)⟩
    · intro hk
      exact hk.1

/-- From a state in sync, a step that closes only a flushed handle stays in sync exactly if it
deletes no id that has an entry. -/
theorem Trans.inSync_iff (hJ : J.Laws) {s s' : Session E} {o : Op E} (h : Trans M J s o s')
    (hs : Inv M J s) (hsync : InSync M J s) (hflushed : FlushedClose J s o) :
    InSync M J s' ↔ DeletesNothing s o := by
  cases h with
  -- a delete that is refused belongs here too: the handle is read-only
  | @idle o hdel =>
    apply iff_of_true hsync
    by_cases hdelete : ∃ id, o = .delete id
    · obtain ⟨id, rfl⟩ := hdelete
      intro t ht hro
      have hview := hdel id t rfl ht
      rw [hro] at hview
      simp at hview
    · apply deletesNothing_of_ne
      intro id ho
      exact hdelete ⟨id, ho⟩
  | @failed o files' hopen hnone hkeep hmeta =>
    refine iff_of_true ?_ (deletesNothing_of_isOpen hopen)
    have hids : persistedIds J files' = persistedIds J s.files := by
      -- a torn first sidecar does not parse, and before it there was none: no ids either way
      rcases hmeta with hsame | ⟨hold, w, n, hn, hcut⟩
      · simp only [persistedIds, diskSidecar, hsame]
      · have hbefore : diskSidecar J s.files = none := by simp [diskSidecar, hold]
        rw [persistedIds_of_none (diskSidecar_torn hJ hn hcut), persistedIds_of_none hbefore]
    apply hsync.keep hkeep.stored
    simp only [sidecarIds, hnone, hids]
  | loaded hopen hnone hkeep _ hold hparse _ =>
    refine iff_of_true ?_ (deletesNothing_of_isOpen hopen)
    have hids := persistedIds_of_sidecar (diskSidecar_of_parse hold hparse)
    apply hsync.keep hkeep.stored
    simp only [sidecarIds, hnone, hids]
  | fresh hopen hnone hkeep _ hold hempty _ _ =>
    refine iff_of_true ?_ (deletesNothing_of_isOpen hopen)
    have hids : persistedIds J s.files = [] := persistedIds_of_none (by simp [diskSidecar, hold])
    apply hsync.keep hkeep.stored
    simp only [sidecarIds, hnone, hids, hempty, MetadataSidecar.ids_empty]
  | index hdel ht _ hatt hvec hsidecar _ =>
    refine iff_of_true ?_ (deletesNothing_of_ne hdel)
    have hstored := (M.durable hatt).trans (hvec.trans (M.durable (hs.held _ ht).attached).symm)
    apply hsync.keep hstored
    simp only [sidecarIds, ht, hsidecar]
  | inserted ht _ hatt hvec hsidecar _ =>
    exact iff_of_true (hsync.inserted hs ht hatt hvec hsidecar) trivial
  | @removed id t t' ht hro hindex hsidecar _ =>
    rw [hsync.removed_iff ht hsidecar]
    constructor
    · intro habs t₁ ht₁ _
      cases ht.symm.trans ht₁
      exact habs
    · intro hnot
      exact hnot t ht hro
  | wrote hdel ht _ hengine _ =>
    refine iff_of_true ?_ (deletesNothing_of_ne hdel)
    apply hsync.keep (by rw [hengine])
    simp only [sidecarIds, ht]
  | unwritten hdel ht _ hengine _ =>
    refine iff_of_true ?_ (deletesNothing_of_ne hdel)
    apply hsync.keep (by rw [hengine])
    simp only [sidecarIds, ht]
  | closed =>
    refine iff_of_true ?_ trivial
    have hstored : M.stored ({ s with handle := none } : Session E).files.engine =
        M.stored s.files.engine := rfl
    apply hsync.keep hstored
    cases hh : s.handle with
    | none => simp only [sidecarIds, hh]
    | some t =>
      have hdisk : diskSidecar J s.files = some t.inner.sidecar := by
        -- a read-only handle never left the disk behind; a read-write one was flushed by hypothesis
        cases hro : t.readOnly with
        | true =>
          obtain ⟨bytes, hmeta, hparse⟩ := (hs.held t hh).view hro
          exact diskSidecar_of_parse hmeta hparse
        | false => exact hflushed t hh hro
      simp only [sidecarIds, hh, persistedIds_of_sidecar hdisk]

/-- A complete snapshot of a session in sync is in sync. -/
theorem InSync.snapshots (hJ : J.Laws) {s : Session E} (hs : Inv M J s) (hsync : InSync M J s) :
    SnapshotsInSync M J s := by
  intro t o env files dest ht hsnap horder id
  obtain ⟨hflush, hcopy⟩ := Tenant.snapshot_ok hsnap
  -- the destination is the directory as the flush left it
  have hdest : dest = files := Tenant.copyDirContents_fresh horder hcopy
  have hid := hsync id
  simp only [sidecarIds, ht] at hid
  rw [hdest]
  rcases Tenant.flush_cases J o s.files t with ⟨hro, h⟩ | ⟨hro, h⟩ | ⟨hro, content, e, h, -⟩
  · rw [h, Prod.mk.injEq] at hflush
    obtain ⟨bytes, hmeta, hparse⟩ := (hs.held t ht).view hro
    rw [← hflush.1, persistedIds_of_sidecar (diskSidecar_of_parse hmeta hparse)]
    exact hid
  · rw [h, Prod.mk.injEq] at hflush
    rw [← hflush.1, persistedIds_of_sidecar (diskSidecar_of_parse rfl (hJ.roundTrip _))]
    exact hid
  · rw [h, Prod.mk.injEq] at hflush
    simp at hflush

theorem init_inSync : InSync M J (init : Session E) := by
  intro id
  have hnone : M.stored (init : Session E).files.engine = fun _ => none := M.absent rfl
  rw [hnone]
  simp [sidecarIds, persistedIds, diskSidecar, init, Dir.fresh]

/-- In a run whose closes are all flushed, index and sidecar hold the same ids in every state, and
so does every snapshot, exactly if no step deletes an id that has an entry. -/
theorem eachState_inSync_iff (M : E.Model) (hJ : J.Laws) (dir : PathBuf) {ops : List (Op E)}
    (hflushed : Runs.EachStep (step J dir) (FlushedClose J) init ops) :
    Runs.EachState (step J dir) (fun s => InSync M J s ∧ SnapshotsInSync M J s) init ops ↔
      Runs.EachStep (step J dir) DeletesNothing init ops := by
  have hinv : ∀ s o, Inv M J s → FlushedClose J s o → Inv M J (step J dir s o) :=
    fun s o hs _ => step_inv hJ dir hs o
  refine Runs.eachState_iff_eachStep (step J dir) hinv ?_ init_inv
    ⟨init_inSync, init_inSync.snapshots hJ init_inv⟩ hflushed
  intro s o hs hsync ho
  -- the snapshots follow from the state, so only the ids of the state decide
  have hiff := (step_trans hs dir o).inSync_iff hJ hs hsync.1 ho
  constructor
  · intro h
    exact hiff.1 h.1
  · intro h
    exact ⟨hiff.2 h, (hiff.2 h).snapshots hJ (step_inv hJ dir hs o)⟩

/-! ## A delete that leaves a vector -/

section DeletedVector

open Reference

/-- A record. -/
def note : Tenant.Record Int := ⟨⟨1⟩, [0], true, ["note"], [1]⟩

/-- The record is inserted and survives a flushed close; then an absent id is deleted. -/
def flushedClose : List (Op engine) :=
  [.open quiet .zero 1, .insert false note, .flush .done, .close, .open quiet .zero 1,
    .delete ⟨2⟩]

theorem eachState_inSync_iff_example :
    Runs.EachState (step json home) (fun s => InSync model json s ∧ SnapshotsInSync model json s)
      init flushedClose := by
  have hflushed : Runs.EachStep (step json home) (FlushedClose json) init flushedClose := by
    decide +kernel
  have hdeletes : Runs.EachStep (step json home) DeletesNothing init flushedClose := by
    decide +kernel
  exact (eachState_inSync_iff model json_laws home hflushed).2 hdeletes

/-- The record is inserted and deleted. -/
def deletedNote : List (Op engine) :=
  [.open quiet .zero 1, .insert false note, .delete ⟨1⟩]

/-- After the delete the index still holds the vector. -/
theorem eachState_inSync_deletedNote :
    ¬ ∀ ops : List (Op engine), Runs.EachStep (step json home) (FlushedClose json) init ops →
      Runs.EachState (step json home) (InSync model json) init ops := by
  intro h
  have hflushed : Runs.EachStep (step json home) (FlushedClose json) init deletedNote := by
    decide +kernel
  have hend : InSync model json (runs json home deletedNote) :=
    (Runs.eachState_iff (step json home)).1 (h deletedNote hflushed) _ (List.prefix_refl _)
  have hvector : (storedVectors (runs json home deletedNote).files.engine 1).isSome = true := by
    decide +kernel
  have hentry : 1 ∉ sidecarIds json (runs json home deletedNote) := by decide +kernel
  exact hentry ((hend 1).1 hvector)

end DeletedVector

end Session

end SkegRigging
