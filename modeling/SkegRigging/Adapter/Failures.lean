import SkegRigging.Adapter.TenantSpec
import SkegRigging.Reference.Engine
import SkegRigging.Reference.Json

/-!
# Calls that fail

Every check of `insert`, `delete`, `open` and `open_readonly_at` comes before the first side effect
of the function, and what follows the engine's insert cannot fail. So a call that returns an error
has changed nothing, if the engine leaves its files alone when an insert fails and when it opens
(`errors_change_nothing`). An `open` of a directory without `meta.json` is another matter: it writes
one, and that write can fail halfway.
-/

set_option autoImplicit false

namespace SkegRigging

open DiskVamanaIndex

variable {F S : Type} {E : DiskVamanaIndex F S}

/-- An insert that fails changes neither the files nor the index, and opening an index writes
nothing. -/
structure DiskVamanaIndex.FailsClean (E : DiskVamanaIndex F S) : Prop where
  insert : ∀ {env files h id v files' h' e},
    E.insert env files h id v = ((files', h'), .error e) → files' = files ∧ h' = h
  openIndex : ∀ {env files files' r}, E.openIndex env files = (files', r) → files' = files

namespace Tenant

variable {J : SerdeJson} {dir : PathBuf} {files files' : Dir E} {t t' : Tenant E}

theorem insert_failed (hE : E.FailsClean) {env : E.Env} {r : Record F} {e : TenantError}
    (h : insert env files t r = (files', t', .error e)) : files' = files ∧ t' = t := by
  rw [insert_eq] at h
  generalize hs : insertState env files t r = o at h
  obtain ⟨mid, t₁, res⟩ := o
  simp only [Prod.mk.injEq] at h
  obtain ⟨rfl, ht, rfl⟩ := h
  dsimp only at ht
  subst ht
  rcases insertState_ends hs with ⟨rfl, rfl, -⟩ | ⟨-, engine, index, ires, hins, rfl, hcase⟩
  · exact ⟨rfl, rfl⟩
  · rcases hcase with ⟨⟨err, rfl, -⟩, rfl⟩ | ⟨-, hok, -⟩
    · -- the engine's own error: it hands back what it was given
      obtain ⟨rfl, rfl⟩ := hE.insert hins
      exact ⟨rfl, rfl⟩
    · simp at hok

/-- `TenantWrite::insert` is the inherent one. -/
theorem writer_insert_failed (hE : E.FailsClean) {env : E.Env} {o : WriteOutcome} {id : RecordId}
    {v : List F} {shareable : Bool} {tags : List String} {payload : Bytes} {s' : Dir E × Tenant E}
    {e : TenantError}
    (h : (writer J env o).insert (files, t) id v shareable tags payload = (s', .error e)) :
    s' = (files, t) := by
  generalize hins : insert env files t ⟨id, v, shareable, tags, payload⟩ = call
  obtain ⟨mid, t₁, res⟩ := call
  simp only [writer, hins, Prod.mk.injEq] at h
  obtain ⟨rfl, rfl⟩ := h
  obtain ⟨rfl, rfl⟩ := insert_failed hE hins
  rfl

theorem delete_failed {id : RecordId} {e : TenantError} (h : t.delete id = (t', .error e)) :
    t' = t := by
  rcases deleteState_cases t id with ⟨-, hdel⟩ | ⟨-, hdel⟩
  · rw [delete, hdel] at h
    exact (congrArg Prod.fst h).symm
  · rw [delete, hdel] at h
    have hres := congrArg Prod.snd h
    simp at hres

theorem open_failed (hE : E.FailsClean) {env : OpenEnv E} {tenantId : TenantId} {dim : UInt32}
    {e : TenantError} (hmeta : files.metaJson.isSome = true)
    (h : Tenant.open J env dir files tenantId dim = (files', .error e)) : files' = files := by
  have hno : files.metaJson ≠ none := Option.isSome_iff_ne_none.1 hmeta
  cases open_ends h with
  | stopped => rfl
  | unopened _ hopen => rw [hE.openIndex hopen]
  -- the other branches need a directory without `meta.json`
  | uncreated hnone => exact absurd hnone hno
  | adopted hnone => exact absurd hnone hno
  | created hnone => exact absurd hnone hno

theorem openReadonlyAt_failed (hE : E.FailsClean) {env : OpenEnv E} {e : TenantError}
    (h : openReadonlyAt J env dir files = (files', .error e)) : files' = files := by
  cases openReadonlyAt_ends h with
  | stopped => rfl
  | unopened _ hopen => rw [hE.openIndex hopen]

/-- For every tenant, every directory and every arguments: an insert (inherent or through
`TenantWrite`) or a delete that fails leaves the files and the whole tenant as they were, its index,
its records and the queues of its subscribers, and an open of a directory with a `meta.json` that
fails leaves every file. -/
theorem errors_change_nothing (hE : E.FailsClean) (J : SerdeJson) (dir : PathBuf) (files : Dir E) :
    (∀ (t : Tenant E) env r files' t' e,
      t.insert env files r = (files', t', .error e) → files' = files ∧ t' = t) ∧
    (∀ (t : Tenant E) env o id v shareable tags payload s' e,
      (writer J env o).insert (files, t) id v shareable tags payload = (s', .error e) →
        s' = (files, t)) ∧
    (∀ (t : Tenant E) id t' e, t.delete id = (t', .error e) → t' = t) ∧
    (files.metaJson.isSome = true → ∀ env files' e,
      (∀ tenantId dim, Tenant.open J env dir files tenantId dim = (files', .error e) →
        files' = files) ∧
      (openReadonlyAt J env dir files = (files', .error e) → files' = files)) :=
  ⟨fun _ _ _ _ _ _ h => insert_failed hE h,
    fun _ _ _ _ _ _ _ _ _ _ h => writer_insert_failed hE h,
    fun _ _ _ _ h => delete_failed h,
    fun hmeta _ _ _ => ⟨fun _ _ h => open_failed hE hmeta h, fun h => openReadonlyAt_failed hE h⟩⟩

section Home

open Reference

theorem failsClean_engine : engine.FailsClean where
  insert h := by
    rcases insert_cases h with ⟨rfl, rfl, -⟩ | ⟨-, -, hr⟩
    · exact ⟨rfl, rfl⟩
    · simp at hr
  openIndex h := (openIndex_cases h).1

/-- A new tenant of dimension one and its directory. -/
def blank : Tenant engine := handle home (Log.empty 1) (.empty .zero 1) .zero 1

def blankDir : Dir engine where
  metaJson := some (json.toVec (.empty .zero 1))
  engine := writeIndex (fun _ => none) (.empty 1)

/-- An insert that the engine fails, and an open with another dimension. -/
theorem errors_change_nothing_example :
    (∃ e, blank.insert true blankDir ⟨⟨1⟩, [5], true, [], []⟩ = (blankDir, blank, .error e)) ∧
      ∃ e, Tenant.open json quiet home blankDir .zero 2 = (blankDir, .error e) := by
  obtain ⟨hinsert, -, -, hopen⟩ := errors_change_nothing failsClean_engine json home blankDir
  refine ⟨⟨.io failure, ?_⟩, ?_⟩
  · generalize h : blank.insert true blankDir ⟨⟨1⟩, [5], true, [], []⟩ = out
    obtain ⟨files', t', res⟩ := out
    have hres : res = .error (.io failure) := (congrArg (fun o => o.2.2) h).symm
    rw [hres] at h ⊢
    obtain ⟨rfl, rfl⟩ := hinsert _ _ _ _ _ _ h
    rfl
  · have hfail : (Tenant.open json quiet home blankDir .zero 2).2.toOption.isNone = true := by
      decide +kernel
    generalize h : Tenant.open json quiet home blankDir .zero 2 = out at hfail ⊢
    obtain ⟨files', res⟩ := out
    cases res with
    | ok t => simp [Except.toOption] at hfail
    | error e =>
      have hsame := (hopen rfl quiet files' e).1 _ _ h
      exact ⟨e, by rw [hsame]⟩

end Home

end Tenant

end SkegRigging
