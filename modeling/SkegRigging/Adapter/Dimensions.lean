import SkegRigging.Adapter.Session

/-!
# The dimensions of a handle

A handle has three dimensions: its own, that of its sidecar and that of its index. `open` compares
them, and no later operation changes one (`Session.runs_sized`), so a directory that such a handle
left passes the checks of the next open. Its `meta.json` is there as long as the handle is
(`Session.runs_metaJson`).
-/

set_option autoImplicit false

namespace SkegRigging

open DiskVamanaIndex

variable {F S : Type} {E : DiskVamanaIndex F S}

/-- An index has the dimension it was created with. -/
structure KeepsDim (E : DiskVamanaIndex F S) : Prop where
  create : ∀ {env files dim l files' h}, E.createEmpty env files dim l = (files', .ok h) →
    E.dim h = dim
  insert : ∀ {env files h id v files' h' r}, E.insert env files h id v = ((files', h'), r) →
    E.dim h' = E.dim h
  consolidate : ∀ {env files h files' h' r}, E.consolidate env files h = ((files', h'), r) →
    E.dim h' = E.dim h

/-- A handle on the directory `dir` whose three dimensions agree. -/
structure Sized (dir : PathBuf) (t : Tenant E) : Prop where
  dir : t.dir = dir
  sidecar : t.inner.sidecar.embeddingDim = t.embeddingDim
  index : asU32 (E.dim t.inner.index) = t.embeddingDim

/-- The sidecar of a handle has the handle's dimension. -/
def SidecarDim (t : Tenant E) : Prop := t.inner.sidecar.embeddingDim = t.embeddingDim

/-- `t'` is `t` up to records, vectors and subscribers. -/
structure SameDims (t t' : Tenant E) : Prop where
  dir : t'.dir = t.dir
  embeddingDim : t'.embeddingDim = t.embeddingDim
  sidecar : t'.inner.sidecar.embeddingDim = t.inner.sidecar.embeddingDim
  index : KeepsDim E → E.dim t'.inner.index = E.dim t.inner.index

theorem SameDims.refl (t : Tenant E) : SameDims t t := ⟨rfl, rfl, rfl, fun _ => rfl⟩

theorem SidecarDim.of_same {t t' : Tenant E} (ht : SidecarDim t) (h : SameDims t t') :
    SidecarDim t' :=
  h.sidecar.trans (ht.trans h.embeddingDim.symm)

theorem Sized.of_same (hE : KeepsDim E) {dir : PathBuf} {t t' : Tenant E} (ht : Sized dir t)
    (h : SameDims t t') : Sized dir t' where
  dir := h.dir.trans ht.dir
  sidecar := SidecarDim.of_same ht.sidecar h
  index := by rw [h.index hE, h.embeddingDim, ht.index]

namespace Tenant

variable {J : SerdeJson} {dir : PathBuf} {files files' : Dir E} {t t' : Tenant E}

/-! ## Opening -/

/-- The dimensions of a handle that was just opened. -/
structure NewDims (dir : PathBuf) (t : Tenant E) : Prop where
  dir : t.dir = dir
  sidecar : SidecarDim t
  index : KeepsDim E → asU32 (E.dim t.inner.index) = t.embeddingDim

theorem startEmpty_dims {env : OpenEnv E} {tenantId : TenantId} {dim : UInt32} {idx : E.Handle}
    (hdim : KeepsDim E → asU32 (E.dim idx) = dim)
    (h : startEmpty J env dir tenantId dim idx files = (files', .ok t)) : NewDims dir t := by
  rcases startEmpty_cases J env dir tenantId dim idx files with hok | ⟨content, e, herr, -⟩
  · rw [hok, Prod.mk.injEq] at h
    exact Except.ok.inj h.2 ▸ ⟨rfl, rfl, hdim⟩
  · simp [herr] at h

/-- Every branch of `open` ends with dimensions that agree. -/
theorem open_dims {env : OpenEnv E} {tenantId : TenantId} {dim : UInt32}
    (h : Tenant.open J env dir files tenantId dim = (files', .ok t)) : NewDims dir t := by
  cases open_ends h with
  | reopened hmeta hparse hw hopen hdim => exact ⟨rfl, hw, fun _ => hdim⟩
  | adopted hmeta hopen hdim hstart => exact startEmpty_dims (fun _ => hdim) hstart
  | created hmeta hindex hcreate hstart =>
    -- this branch does not check: the engine was told the dimension
    apply startEmpty_dims _ hstart
    intro hE
    rw [hE.create hcreate, asU32]
    exact UInt32.ofNat_toNat

theorem openReadonlyAt_dims {env : OpenEnv E}
    (h : openReadonlyAt J env dir files = (files', .ok t)) : NewDims dir t := by
  cases openReadonlyAt_ends h with
  | opened hmeta hparse hopen hdim => exact ⟨rfl, rfl, fun _ => hdim⟩

/-! ## Calls on a handle -/

theorem insert_same {env : E.Env} {r : Record F} {res : Except TenantError Unit}
    (h : insert env files t r = (files', t', res)) : SameDims t t' := by
  have hstate : SameDims t (insertState env files t r).2.1 := by
    generalize hs : insertState env files t r = o
    obtain ⟨mid, t₁, res₁⟩ := o
    rcases insertState_ends hs with ⟨-, rfl, -⟩ | ⟨-, engine, index, ires, hins, -, hcase⟩
    · exact SameDims.refl _
    · rcases hcase with ⟨-, rfl⟩ | ⟨-, -, rfl⟩
      · exact ⟨rfl, rfl, rfl, fun hE => hE.insert hins⟩
      · exact ⟨rfl, rfl, rfl, fun hE => hE.insert hins⟩
  rw [insert_eq] at h
  simp only [Prod.mk.injEq] at h
  rw [← h.2.1]
  split
  · exact ⟨hstate.dir, hstate.embeddingDim, hstate.sidecar, hstate.index⟩
  · exact hstate

theorem delete_same (t : Tenant E) (id : RecordId) : SameDims t (t.delete id).1 := by
  rcases deleteState_cases t id with ⟨-, h⟩ | ⟨-, h⟩
  · rw [delete, h]
    exact SameDims.refl t
  · rw [delete, h]
    dsimp only
    split
    · exact ⟨rfl, rfl, rfl, fun _ => rfl⟩
    · exact ⟨rfl, rfl, rfl, fun _ => rfl⟩

theorem consolidate_same {env : E.Env} {res : Except TenantError Unit}
    (h : consolidate env files t = (files', t', res)) : SameDims t t' := by
  rcases consolidate_ends h with ⟨-, rfl⟩ | ⟨engine, index, cres, hcon, -, rfl⟩
  · exact SameDims.refl _
  · exact ⟨rfl, rfl, rfl, fun hE => hE.consolidate hcon⟩

end Tenant

namespace Session

variable {J : SerdeJson} {dir : PathBuf}

/-- `P` holds of every handle that an open returns, and every call on a handle keeps it. -/
structure OnHandles (J : SerdeJson) (dir : PathBuf) (P : Tenant E → Prop) : Prop where
  «open» : ∀ {env files files' tenantId dim t},
    Tenant.open J env dir files tenantId dim = (files', .ok t) → P t
  openReadonly : ∀ {env files files' t},
    Tenant.openReadonlyAt J env dir files = (files', .ok t) → P t
  insert : ∀ {env files files' t t' r res},
    P t → Tenant.insert env files t r = (files', t', res) → P t'
  delete : ∀ {t} id, P t → P (t.delete id).1
  consolidate : ∀ {env files files' t t' res},
    P t → Tenant.consolidate env files t = (files', t', res) → P t'

theorem OnHandles.step {P : Tenant E → Prop} (hP : OnHandles J dir P) {s : Session E}
    (hs : ∀ t, s.handle = some t → P t) (o : Op E) :
    ∀ t, (step J dir s o).handle = some t → P t := by
  intro t ht
  cases hh : s.handle with
  | none =>
    cases o with
    | «open» env tenantId embeddingDim =>
      simp only [Session.step, hh] at ht
      generalize ho : Tenant.open J env dir s.files tenantId embeddingDim = o at ht
      obtain ⟨files', res⟩ := o
      cases res with
      | error e => simp [opened, hh] at ht
      | ok t₁ =>
        cases ht
        exact hP.open ho
    | openReadonly env =>
      simp only [Session.step, hh] at ht
      generalize ho : Tenant.openReadonlyAt J env dir s.files = o at ht
      obtain ⟨files', res⟩ := o
      cases res with
      | error e => simp [openedReadonly, hh] at ht
      | ok t₁ =>
        cases ht
        exact hP.openReadonly ho
    | close => simp [Session.step] at ht
    | insert env r => simp [Session.step, hh] at ht
    | delete id => simp [Session.step, hh] at ht
    | flush o => simp [Session.step, hh] at ht
    | consolidate env => simp [Session.step, hh] at ht
    | snapshot o env dest => simp [Session.step, hh] at ht
  | some t₀ =>
    have ht₀ := hs t₀ hh
    have hsame : s.handle = some t → P t := fun h => hs t h
    -- a flush leaves the handle as it is, alone or inside a snapshot
    have hflushed : ∀ o, (s.flushed t₀ (t₀.flush J o s.files)).handle = s.handle := by
      intro o
      obtain ⟨files', res⟩ := t₀.flush J o s.files
      cases res <;> rfl
    cases o with
    | «open» env tenantId embeddingDim =>
      simp only [Session.step, hh] at ht
      exact hsame (hh ▸ ht)
    | openReadonly env =>
      simp only [Session.step, hh] at ht
      exact hsame (hh ▸ ht)
    | close => simp [Session.step] at ht
    | insert env r =>
      simp only [Session.step, hh] at ht
      generalize ho : t₀.insert env s.files r = o at ht
      obtain ⟨files', t', res⟩ := o
      have hkept := hP.insert ht₀ ho
      cases res with
      | error e => exact Option.some.inj ht ▸ hkept
      | ok u => exact Option.some.inj ht ▸ hkept
    | delete id =>
      simp only [Session.step, hh] at ht
      exact Option.some.inj ht ▸ hP.delete id ht₀
    | flush o =>
      simp only [Session.step, hh] at ht
      rw [hflushed] at ht
      exact hsame ht
    | consolidate env =>
      simp only [Session.step, hh] at ht
      generalize ho : t₀.consolidate env s.files = o at ht
      obtain ⟨files', t', res⟩ := o
      exact Option.some.inj ht ▸ hP.consolidate ht₀ ho
    | snapshot o env dest =>
      simp only [Session.step, hh] at ht
      split at ht
      · exact hsame ht
      · rw [hflushed] at ht
        exact hsame ht

/-- What opens establish and calls keep holds of every open handle of a run. -/
theorem OnHandles.runs {P : Tenant E → Prop} (hP : OnHandles J dir P) (ops : List (Op E)) :
    ∀ t, (runs J dir ops).handle = some t → P t := by
  have hstep : ∀ (s : Session E) o, (∀ t, s.handle = some t → P t) →
      ∀ t, (Session.step J dir s o).handle = some t → P t := fun s o hs => hP.step hs o
  have hinit : ∀ t, (init : Session E).handle = some t → P t := by
    intro t ht
    simp [init] at ht
  exact Runs.run_invariant (Session.step J dir) hstep hinit ops

/-- A property of the dimensions is kept by every call. -/
theorem onHandles_of_same {P : Tenant E → Prop} (hnew : ∀ t, Tenant.NewDims dir t → P t)
    (hsame : ∀ t t', SameDims t t' → P t → P t') : OnHandles J dir P where
  «open» h := hnew _ (Tenant.open_dims h)
  openReadonly h := hnew _ (Tenant.openReadonlyAt_dims h)
  insert ht h := hsame _ _ (Tenant.insert_same h) ht
  delete id ht := hsame _ _ (Tenant.delete_same _ id) ht
  consolidate ht h := hsame _ _ (Tenant.consolidate_same h) ht

theorem runs_sized (hE : KeepsDim E) (J : SerdeJson) (dir : PathBuf) (ops : List (Op E)) :
    ∀ t, (runs J dir ops).handle = some t → Sized dir t := by
  have hsized : OnHandles J dir (Sized dir : Tenant E → Prop) :=
    onHandles_of_same (fun t ht => ⟨ht.dir, ht.sidecar, ht.index hE⟩)
      fun t t' hsame ht => ht.of_same hE hsame
  exact hsized.runs ops

theorem onHandles_sidecarDim (J : SerdeJson) (dir : PathBuf) :
    OnHandles J dir (SidecarDim : Tenant E → Prop) :=
  onHandles_of_same (fun _ ht => ht.sidecar) fun _ _ hsame ht => ht.of_same hsame

theorem runs_sidecarDim (J : SerdeJson) (dir : PathBuf) (ops : List (Op E)) :
    ∀ t, (runs J dir ops).handle = some t → SidecarDim t :=
  (onHandles_sidecarDim J dir).runs ops

/-- While a handle is open there is a `meta.json`: every open reads one or writes one, and nothing
but the end of the tenant removes it. -/
theorem Trans.metaJson {M : E.Model} {s s' : Session E} {o : Op E} (h : Trans M J s o s')
    (hs : s.handle.isSome = true → s.files.metaJson.isSome = true) :
    s'.handle.isSome = true → s'.files.metaJson.isSome = true := by
  intro hsome
  have hopen : ∀ t, s.handle = some t → s.files.metaJson.isSome = true := by
    intro t ht
    apply hs
    rw [ht]
    rfl
  cases h with
  | idle _ => exact hs hsome
  | failed _ hnone _ _ => simp [hnone] at hsome
  | loaded _ _ _ _ _ _ hmeta => simp [hmeta]
  | fresh _ _ _ _ _ _ _ hmeta => simp [hmeta]
  | index _ ht hmeta _ _ _ _ =>
    rw [hmeta]
    exact hopen _ ht
  | inserted ht hmeta _ _ _ _ =>
    rw [hmeta]
    exact hopen _ ht
  | removed ht _ _ _ _ => exact hopen _ ht
  | wrote _ _ _ _ hmeta => simp [hmeta]
  | unwritten _ ht _ _ hmeta =>
    rcases hmeta with hmeta | ⟨n, -, hmeta⟩
    · rw [hmeta]
      exact hopen _ ht
    · simp [hmeta]
  | closed => simp at hsome

theorem runs_metaJson (M : E.Model) (hJ : J.Laws) (dir : PathBuf) (ops : List (Op E))
    {t : Tenant E} (ht : (runs J dir ops).handle = some t) :
    (runs J dir ops).files.metaJson.isSome = true := by
  have hstep : ∀ s o, (Inv M J s ∧ (s.handle.isSome = true → s.files.metaJson.isSome = true)) →
      Inv M J (step J dir s o) ∧
        ((step J dir s o).handle.isSome = true → (step J dir s o).files.metaJson.isSome = true) :=
    fun s o hs => ⟨step_inv hJ dir hs.1 o, (step_trans hs.1 dir o).metaJson hs.2⟩
  have hinit : (init : Session E).handle.isSome = true →
      (init : Session E).files.metaJson.isSome = true := by
    intro h
    simp [init] at h
  have hrun := Runs.run_invariant (step J dir) hstep ⟨init_inv, hinit⟩ ops
  exact hrun.2 (Option.isSome_iff_exists.2 ⟨t, ht⟩)

end Session

end SkegRigging
