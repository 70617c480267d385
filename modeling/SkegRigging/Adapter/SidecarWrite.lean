import SkegRigging.Adapter.TenantSpec
import SkegRigging.Reference.Engine
import SkegRigging.Reference.Json

/-!
# A flush that is cut short

`std::fs::write` truncates `meta.json` and then writes its bytes in one or more steps. The outcome
`stopped n` of a flush is also what a crash leaves after `n` bytes, and what the open of another
process sees at that point; `refused` is a point before the truncation.

Between the truncation and the last byte the file does not parse. An open succeeds, with the
previous sidecar or the new one, exactly at the points outside that window (`flush_atomic_iff`).
-/

set_option autoImplicit false

namespace SkegRigging

open DiskVamanaIndex

variable {F S : Type} {E : DiskVamanaIndex F S}

/-- The point of the write is before the truncation or after the last byte. -/
def WriteOutcome.Uncut (o : WriteOutcome) (bytes : Bytes) : Prop :=
  match o with
  | .done => True
  | .refused _ => True
  | .stopped n _ => bytes.length ≤ n

namespace Tenant

/-- An open succeeded and loaded one of the two sidecars, whole. -/
def Loads (r : Dir E × Except TenantError (Tenant E)) (prev cur : MetadataSidecar) : Prop :=
  ∃ t, r.2 = .ok t ∧ (t.inner.sidecar = prev ∨ t.inner.sidecar = cur)

/-- Nothing but `meta.json` can make an open fail: the directory can be created and read, and the
engine opens its files with the dimension `dim`. -/
structure OpensEngine (env : OpenEnv E) (files : E.Files) (dim : UInt32) : Prop where
  createDirAll : env.createDirAll = none
  readMeta : env.readMeta = none
  engine : ∃ files' idx, E.openIndex env.engine files = (files', .ok idx) ∧
    asU32 (E.dim idx) = dim

section Reopen

variable {J : SerdeJson} {env : OpenEnv E} {dir : PathBuf} {files : Dir E} {bytes : Bytes}
  {dim : UInt32}

theorem openEngine_eq (h : OpensEngine env files.engine dim) :
    ∃ files' idx, openEngine env files dim = (files', .ok idx) := by
  obtain ⟨engine, idx, hopen, hdim⟩ := h.engine
  refine ⟨{ files with engine }, idx, ?_⟩
  simp [openEngine, hopen, hdim]

/-- Both openings load a sidecar that `meta.json` parses to. -/
theorem opens_of_parse (h : OpensEngine env files.engine dim) (hmeta : files.metaJson = some bytes)
    {w : MetadataSidecar} (hparse : J.fromSlice bytes = .ok w) (hdim : w.embeddingDim = dim)
    (tenantId : TenantId) :
    (∃ t, («open» J env dir files tenantId dim).2 = .ok t ∧ t.inner.sidecar = w) ∧
      ∃ t, (openReadonlyAt J env dir files).2 = .ok t ∧ t.inner.sidecar = w := by
  obtain ⟨files', idx, hengine⟩ := openEngine_eq h
  -- both openings read the file first and fail only after it
  have hread : MetadataSidecar.readFromPath J env.readMeta files.metaJson = .ok w := by
    simp only [h.readMeta, hmeta, MetadataSidecar.readFromPath, hparse]
  have hbranch : branch files = .reopen := by simp [branch, hmeta]
  have hsome : files.metaJson.isSome = true := by simp [hmeta]
  subst hdim
  constructor
  · refine ⟨handle dir idx w tenantId w.embeddingDim, ?_, rfl⟩
    simp only [«open», h.createDirAll, hbranch, reopen, hread, hengine, ne_eq, not_true_eq_false,
      if_false]
  · refine ⟨{ handle dir idx w w.tenantId w.embeddingDim with readOnly := true }, ?_, rfl⟩
    simp only [openReadonlyAt, hsome, if_true, hread, hengine]

/-- Neither opening succeeds on a `meta.json` that does not parse. -/
theorem not_opens_of_unparsable (h : OpensEngine env files.engine dim)
    (hmeta : files.metaJson = some bytes) {e : String} (hparse : J.fromSlice bytes = .error e)
    (tenantId : TenantId) :
    («open» J env dir files tenantId dim).2 = .error (.json e) ∧
      (openReadonlyAt J env dir files).2 = .error (.json e) := by
  have hread : MetadataSidecar.readFromPath J env.readMeta files.metaJson = .error (.json e) := by
    simp only [h.readMeta, hmeta, MetadataSidecar.readFromPath, hparse]
  have hbranch : branch files = .reopen := by simp [branch, hmeta]
  have hsome : files.metaJson.isSome = true := by simp [hmeta]
  constructor
  · simp only [«open», h.createDirAll, hbranch, reopen, hread]
  · simp only [openReadonlyAt, hsome, if_true, hread]

end Reopen

/-- What `meta.json` holds at a point of a flush. -/
theorem flush_metaJson (J : SerdeJson) (o : WriteOutcome) (files : Dir E) {t : Tenant E}
    (hrw : t.readOnly = false) :
    ((flush J o files t).1.engine = files.engine) ∧
      (o.Uncut (J.toVec t.inner.sidecar) ∧ ((flush J o files t).1.metaJson = files.metaJson ∨
          (flush J o files t).1.metaJson = some (J.toVec t.inner.sidecar)) ∨
        ¬ o.Uncut (J.toVec t.inner.sidecar) ∧ ∃ n < (J.toVec t.inner.sidecar).length,
          (flush J o files t).1.metaJson = some ((J.toVec t.inner.sidecar).take n)) := by
  cases o with
  | done => simp [flush, hrw, MetadataSidecar.writeToPath, fsWrite, WriteOutcome.Uncut]
  | refused e => simp [flush, hrw, MetadataSidecar.writeToPath, fsWrite, WriteOutcome.Uncut]
  | stopped n e =>
    -- a stop past the last byte is a complete write
    by_cases hn : n < (J.toVec t.inner.sidecar).length
    · refine ⟨?_, Or.inr ⟨?_, n, hn, ?_⟩⟩
      · simp [flush, hrw, MetadataSidecar.writeToPath, fsWrite, hn]
      · intro hle
        exact absurd hn (Nat.not_lt.2 hle)
      · simp [flush, hrw, MetadataSidecar.writeToPath, fsWrite, hn]
    · refine ⟨?_, Or.inl ⟨?_, Or.inr ?_⟩⟩
      · simp [flush, hrw, MetadataSidecar.writeToPath, fsWrite, hn]
      · exact Nat.not_lt.1 hn
      · simp [flush, hrw, MetadataSidecar.writeToPath, fsWrite, hn]

/-- After a flush that a crash or another process meets at any point, both openings succeed with the
previous or the current sidecar exactly when the point is not between the truncation and the last
byte. -/
theorem flush_atomic_iff {J : SerdeJson} (hJ : J.Laws) {env : OpenEnv E} (dir : PathBuf)
    {files : Dir E} {prev : MetadataSidecar} (hprev : files.metaJson = some (J.toVec prev))
    {t : Tenant E} (hrw : t.readOnly = false)
    (hdim : prev.embeddingDim = t.inner.sidecar.embeddingDim)
    (hengine : OpensEngine env files.engine t.inner.sidecar.embeddingDim) (tenantId : TenantId)
    (o : WriteOutcome) :
    (Loads («open» J env dir (flush J o files t).1 tenantId t.inner.sidecar.embeddingDim) prev
        t.inner.sidecar ↔ o.Uncut (J.toVec t.inner.sidecar)) ∧
      (Loads (openReadonlyAt J env dir (flush J o files t).1) prev t.inner.sidecar ↔
        o.Uncut (J.toVec t.inner.sidecar)) := by
  obtain ⟨hfiles, hcase⟩ := flush_metaJson J o files hrw
  have hengine' : OpensEngine env (flush J o files t).1.engine t.inner.sidecar.embeddingDim := by
    rw [hfiles]
    exact hengine
  rcases hcase with ⟨huncut, hmeta⟩ | ⟨hcut, n, hn, hmeta⟩
  -- outside the window the file is one of the two sidecars, and both have the same dimension
  · obtain ⟨w, hw, hwdim, hmeta'⟩ : ∃ w, (w = prev ∨ w = t.inner.sidecar) ∧
        w.embeddingDim = t.inner.sidecar.embeddingDim ∧
        (flush J o files t).1.metaJson = some (J.toVec w) := by
      rcases hmeta with hold | hnew
      · exact ⟨prev, Or.inl rfl, hdim, hold.trans hprev⟩
      · exact ⟨_, Or.inr rfl, rfl, hnew⟩
    obtain ⟨⟨t₁, hopen, hside⟩, t₂, hreadonly, hside'⟩ :=
      opens_of_parse hengine' hmeta' (hJ.roundTrip w) hwdim tenantId
    constructor
    · exact iff_of_true ⟨t₁, hopen, hside ▸ hw⟩ huncut
    · exact iff_of_true ⟨t₂, hreadonly, hside' ▸ hw⟩ huncut
  -- inside the window the file is a proper prefix, which does not parse
  · obtain ⟨e, he⟩ := hJ.truncated t.inner.sidecar n hn
    obtain ⟨hopen, hreadonly⟩ := not_opens_of_unparsable hengine' hmeta he tenantId
    constructor
    · refine iff_of_false ?_ hcut
      rintro ⟨t', ht', -⟩
      rw [hopen] at ht'
      simp at ht'
    · refine iff_of_false ?_ hcut
      rintro ⟨t', ht', -⟩
      rw [hreadonly] at ht'
      simp at ht'

section CutShort

open Reference

/-- A tenant whose sidecar on disk is empty and whose sidecar in memory has one record. -/
def onDisk : MetadataSidecar := .empty .zero 1

def inMemory : MetadataSidecar := ⟨.zero, 1, [⟨1, true, ["note"], [1, 2]⟩]⟩

def tenantFiles : Dir engine :=
  { metaJson := some (json.toVec onDisk), engine := writeIndex (fun _ => none) (Log.empty 1) }

def unflushed : Tenant engine := handle home (Log.empty 1) inMemory .zero 1

theorem flush_atomic_iff_example :
    Loads («open» json quiet home (flush json .done tenantFiles unflushed).1 .zero 1) onDisk
        inMemory ∧
      ¬ Loads (openReadonlyAt json quiet home
          (flush json (.stopped 20 failure) tenantFiles unflushed).1) onDisk inMemory := by
  have hprev : tenantFiles.metaJson = some (json.toVec onDisk) := rfl
  have hrw : unflushed.readOnly = false := rfl
  have hdim : onDisk.embeddingDim = unflushed.inner.sidecar.embeddingDim := rfl
  have hengine : OpensEngine quiet tenantFiles.engine unflushed.inner.sidecar.embeddingDim :=
    ⟨rfl, rfl, _, _, rfl, rfl⟩
  refine ⟨(flush_atomic_iff json_laws home hprev hrw hdim hengine .zero .done).1.2 trivial, ?_⟩
  intro hloads
  have hle := (flush_atomic_iff json_laws home hprev hrw hdim hengine .zero
    (.stopped 20 failure)).2.1 hloads
  have hlen : ¬ (json.toVec inMemory).length ≤ 20 := by decide +kernel
  exact hlen hle

/-- A crash right after the truncation: neither opening succeeds. -/
theorem flush_atomic_truncated :
    ¬ ∀ o, Loads («open» json quiet home (flush json o tenantFiles unflushed).1 .zero 1) onDisk
      inMemory := by
  intro h
  obtain ⟨t, ht, -⟩ := h (.stopped 0 failure)
  have hfails : («open» json quiet home
      (flush json (.stopped 0 failure) tenantFiles unflushed).1 .zero 1).2.isOk = false := by
    decide +kernel
  rw [ht] at hfails
  simp [Except.isOk, Except.toBool] at hfails

end CutShort

end Tenant

end SkegRigging
