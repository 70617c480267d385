import SkegRigging.Adapter.Tenant

/-!
# What each operation of a tenant does

One specification lemma for each operation, over a model of the engine. Later modules cite these
lemmas and do not unfold the operations.
-/

set_option autoImplicit false

namespace SkegRigging

open DiskVamanaIndex

variable {F S : Type} {E : DiskVamanaIndex F S}

namespace DiskVamanaIndex.Model

variable (M : E.Model)

/-- Opening an index keeps the stored vectors and the marker files, whatever it returns. -/
theorem open_files {env : E.Env} {files files' : E.Files} {r : Except IoError E.Handle}
    (h : E.openIndex env files = (files', r)) :
    M.stored files' = M.stored files ∧
      (indexExists files = true → indexExists files' = true) := by
  cases r with
  | error e => exact M.open_error h
  | ok idx =>
    obtain ⟨hatt, hvec⟩ := M.open_ok h
    exact ⟨(M.durable hatt).trans hvec, fun _ => M.marks hatt⟩

end DiskVamanaIndex.Model

namespace Tenant

variable (M : E.Model) {J : SerdeJson} {env : OpenEnv E} {dir : PathBuf} {files files' : Dir E}
  {tenantId : TenantId} {embeddingDim : UInt32}

/-! ## How an opening ends

For any engine: every exit of `open` and `open_readonly_at`, with what was called before it.
-/

section Ends

omit M

theorem openEngine_ends {r : Except TenantError E.Handle}
    (h : openEngine env files embeddingDim = (files', r)) :
    ∃ engine o, E.openIndex env.engine files.engine = (engine, o) ∧ files' = { files with engine } ∧
      ((∃ e, r = .error e) ∨
        ∃ idx, o = .ok idx ∧ r = .ok idx ∧ asU32 (E.dim idx) = embeddingDim) := by
  unfold openEngine at h
  generalize E.openIndex env.engine files.engine = call at h ⊢
  obtain ⟨engine, o⟩ := call
  refine ⟨engine, o, rfl, ?_⟩
  cases o with
  | error e =>
    simp only [Prod.mk.injEq] at h
    exact ⟨h.1.symm, Or.inl ⟨_, h.2.symm⟩⟩
  | ok idx =>
    dsimp only at h
    split at h
    · simp only [Prod.mk.injEq] at h
      exact ⟨h.1.symm, Or.inl ⟨_, h.2.symm⟩⟩
    · rename_i hdim
      simp only [Prod.mk.injEq] at h
      exact ⟨h.1.symm, Or.inr ⟨idx, rfl, h.2.symm, not_not.1 hdim⟩⟩

/-- The handle over a fresh empty sidecar, or a failed write of that sidecar. -/
theorem startEmpty_cases (J : SerdeJson) (env : OpenEnv E) (dir : PathBuf) (tenantId : TenantId)
    (embeddingDim : UInt32) (idx : E.Handle) (files : Dir E) :
    startEmpty J env dir tenantId embeddingDim idx files =
        ({ files with metaJson := some (J.toVec (.empty tenantId embeddingDim)) },
          .ok (handle dir idx (.empty tenantId embeddingDim) tenantId embeddingDim)) ∨
      ∃ content e, startEmpty J env dir tenantId embeddingDim idx files =
          ({ files with metaJson := content }, .error e) ∧
        (content = files.metaJson ∨ ∃ n < (J.toVec (.empty tenantId embeddingDim)).length,
          content = some ((J.toVec (.empty tenantId embeddingDim)).take n)) := by
  -- the handle exists in memory before the write, but a failed write does not return it
  rcases MetadataSidecar.writeToPath_cases J env.writeMeta (.empty tenantId embeddingDim)
      files.metaJson with h | ⟨content, e, h, hc⟩
  · apply Or.inl
    simp only [startEmpty, h]
  · refine Or.inr ⟨content, e, ?_, hc⟩
    simp only [startEmpty, h]

/-- Every exit of `open`. -/
inductive OpenEnds (J : SerdeJson) (env : OpenEnv E) (dir : PathBuf) (files : Dir E)
    (tenantId : TenantId) (embeddingDim : UInt32) :
    Dir E → Except TenantError (Tenant E) → Prop
  -- before a call of the engine
  | stopped (e : TenantError) : OpenEnds J env dir files tenantId embeddingDim files (.error e)
  | unopened {engine : E.Files} {o : Except IoError E.Handle} (e : TenantError)
      (hopen : E.openIndex env.engine files.engine = (engine, o)) :
      OpenEnds J env dir files tenantId embeddingDim { files with engine } (.error e)
  | uncreated {engine : E.Files} {e : IoError} (hmeta : files.metaJson = none)
      (hindex : indexExists files.engine = false)
      (hcreate : E.createEmpty env.engine files.engine embeddingDim.toNat defaultLSearch =
        (engine, .error e)) :
      OpenEnds J env dir files tenantId embeddingDim { files with engine } (.error (.io e))
  | reopened {bytes : Bytes} {w : MetadataSidecar} {engine : E.Files} {idx : E.Handle}
      (hmeta : files.metaJson = some bytes) (hparse : J.fromSlice bytes = .ok w)
      (hw : w.embeddingDim = embeddingDim)
      (hopen : E.openIndex env.engine files.engine = (engine, .ok idx))
      (hdim : asU32 (E.dim idx) = embeddingDim) :
      OpenEnds J env dir files tenantId embeddingDim { files with engine }
        (.ok (handle dir idx w tenantId embeddingDim))
  -- the two branches that write an empty sidecar end as that write does
  | adopted {engine : E.Files} {idx : E.Handle} {files' : Dir E}
      {r : Except TenantError (Tenant E)} (hmeta : files.metaJson = none)
      (hopen : E.openIndex env.engine files.engine = (engine, .ok idx))
      (hdim : asU32 (E.dim idx) = embeddingDim)
      (hstart : startEmpty J env dir tenantId embeddingDim idx { files with engine } =
        (files', r)) :
      OpenEnds J env dir files tenantId embeddingDim files' r
  | created {engine : E.Files} {idx : E.Handle} {files' : Dir E}
      {r : Except TenantError (Tenant E)} (hmeta : files.metaJson = none)
      (hindex : indexExists files.engine = false)
      (hcreate : E.createEmpty env.engine files.engine embeddingDim.toNat defaultLSearch =
        (engine, .ok idx))
      (hstart : startEmpty J env dir tenantId embeddingDim idx { files with engine } =
        (files', r)) :
      OpenEnds J env dir files tenantId embeddingDim files' r

/-- `OpenEnds` lists every exit of `open`. -/
theorem open_ends {r : Except TenantError (Tenant E)}
    (h : «open» J env dir files tenantId embeddingDim = (files', r)) :
    OpenEnds J env dir files tenantId embeddingDim files' r := by
  unfold «open» at h
  split at h
  · simp only [Prod.mk.injEq] at h
    obtain ⟨rfl, rfl⟩ := h
    exact OpenEnds.stopped _
  · split at h
    · unfold reopen at h
      generalize hread : MetadataSidecar.readFromPath J env.readMeta files.metaJson = rd at h
      cases rd with
      | error e =>
        simp only [Prod.mk.injEq] at h
        obtain ⟨rfl, rfl⟩ := h
        exact OpenEnds.stopped _
      | ok loaded =>
        obtain ⟨bytes, hmeta, hparse⟩ := MetadataSidecar.readFromPath_ok hread
        dsimp only at h
        split at h
        · simp only [Prod.mk.injEq] at h
          obtain ⟨rfl, rfl⟩ := h
          exact OpenEnds.stopped _
        · rename_i hw
          generalize heng : openEngine env files embeddingDim = call at h
          obtain ⟨mid, res⟩ := call
          obtain ⟨engine, o, hopen, rfl, ⟨e, rfl⟩ | ⟨idx, rfl, rfl, hdim⟩⟩ := openEngine_ends heng
          · simp only [Prod.mk.injEq] at h
            obtain ⟨rfl, rfl⟩ := h
            exact OpenEnds.unopened _ hopen
          · simp only [Prod.mk.injEq] at h
            obtain ⟨rfl, rfl⟩ := h
            exact OpenEnds.reopened hmeta hparse (not_not.1 hw) hopen hdim
    · rename_i hbranch
      have hmeta : files.metaJson = none := by
        by_contra hsome
        simp [branch, Option.isSome_iff_ne_none.2 hsome] at hbranch
      unfold adopt at h
      generalize heng : openEngine env files embeddingDim = call at h
      obtain ⟨mid, res⟩ := call
      obtain ⟨engine, o, hopen, rfl, ⟨e, rfl⟩ | ⟨idx, rfl, rfl, hdim⟩⟩ := openEngine_ends heng
      · simp only [Prod.mk.injEq] at h
        obtain ⟨rfl, rfl⟩ := h
        exact OpenEnds.unopened _ hopen
      · exact OpenEnds.adopted hmeta hopen hdim h
    · rename_i hbranch
      have hmeta : files.metaJson = none := by
        by_contra hsome
        simp [branch, Option.isSome_iff_ne_none.2 hsome] at hbranch
      have hindex : indexExists files.engine = false := by
        by_contra hsome
        simp [branch, hmeta, hsome] at hbranch
      unfold create at h
      generalize hcreate : E.createEmpty env.engine files.engine embeddingDim.toNat defaultLSearch =
        call at h
      obtain ⟨engine, res⟩ := call
      cases res with
      | error e =>
        simp only [Prod.mk.injEq] at h
        obtain ⟨rfl, rfl⟩ := h
        exact OpenEnds.uncreated hmeta hindex hcreate
      | ok idx => exact OpenEnds.created hmeta hindex hcreate h

/-- Every exit of `open_readonly_at`. -/
inductive ReadonlyEnds (J : SerdeJson) (env : OpenEnv E) (dir : PathBuf) (files : Dir E) :
    Dir E → Except TenantError (Tenant E) → Prop
  | stopped (e : TenantError) : ReadonlyEnds J env dir files files (.error e)
  | unopened {engine : E.Files} {o : Except IoError E.Handle} (e : TenantError)
      (hopen : E.openIndex env.engine files.engine = (engine, o)) :
      ReadonlyEnds J env dir files { files with engine } (.error e)
  | opened {bytes : Bytes} {w : MetadataSidecar} {engine : E.Files} {idx : E.Handle}
      (hmeta : files.metaJson = some bytes) (hparse : J.fromSlice bytes = .ok w)
      (hopen : E.openIndex env.engine files.engine = (engine, .ok idx))
      (hdim : asU32 (E.dim idx) = w.embeddingDim) :
      ReadonlyEnds J env dir files { files with engine }
        (.ok { handle dir idx w w.tenantId w.embeddingDim with readOnly := true })

/-- `ReadonlyEnds` lists every exit of `open_readonly_at`. -/
theorem openReadonlyAt_ends {r : Except TenantError (Tenant E)}
    (h : openReadonlyAt J env dir files = (files', r)) :
    ReadonlyEnds J env dir files files' r := by
  unfold openReadonlyAt at h
  split at h
  · generalize hread : MetadataSidecar.readFromPath J env.readMeta files.metaJson = rd at h
    cases rd with
    | error e =>
      simp only [Prod.mk.injEq] at h
      obtain ⟨rfl, rfl⟩ := h
      exact ReadonlyEnds.stopped _
    | ok sidecar =>
      obtain ⟨bytes, hmeta, hparse⟩ := MetadataSidecar.readFromPath_ok hread
      dsimp only at h
      generalize heng : openEngine env files sidecar.embeddingDim = call at h
      obtain ⟨mid, res⟩ := call
      obtain ⟨engine, o, hopen, rfl, ⟨e, rfl⟩ | ⟨idx, rfl, rfl, hdim⟩⟩ := openEngine_ends heng
      · simp only [Prod.mk.injEq] at h
        obtain ⟨rfl, rfl⟩ := h
        exact ReadonlyEnds.unopened _ hopen
      · simp only [Prod.mk.injEq] at h
        obtain ⟨rfl, rfl⟩ := h
        exact ReadonlyEnds.opened hmeta hparse hopen hdim
  · simp only [Prod.mk.injEq] at h
    obtain ⟨rfl, rfl⟩ := h
    exact ReadonlyEnds.stopped _

end Ends

/-! ## Opening -/

/-- `files'` is `files` after an open that may have touched the engine files but lost no vector, no
marker file, and nothing of `meta.json`. -/
structure KeepsStored (files files' : Dir E) : Prop where
  stored : M.stored files'.engine = M.stored files.engine
  marks : indexExists files.engine = true → indexExists files'.engine = true

theorem KeepsStored.refl (files : Dir E) : KeepsStored M files files := ⟨rfl, fun h => h⟩

/-- Whatever opening the index returns, the vectors and the marker files stay. -/
theorem keepsStored_open {e : E.Env} {engine : E.Files} {o : Except IoError E.Handle}
    (h : E.openIndex e files.engine = (engine, o)) :
    KeepsStored M files { files with engine } := by
  obtain ⟨hstored, hmarks⟩ := M.open_files h
  exact ⟨hstored, hmarks⟩

/-- What a successful `open` returns: a read-write handle on an attached index that serves the
stored vectors, with the sidecar read from `meta.json`, or with a fresh empty one when there was
none. -/
structure Opened (J : SerdeJson) (dir : PathBuf) (tenantId : TenantId) (embeddingDim : UInt32)
    (files files' : Dir E) (t : Tenant E) : Prop where
  handle : t = Tenant.handle dir t.inner.index t.inner.sidecar tenantId embeddingDim
  attached : M.attached files'.engine t.inner.index
  vectors : M.vectors t.inner.index = M.stored files.engine
  dim : t.inner.sidecar.embeddingDim = embeddingDim
  loaded : ∀ bytes, files.metaJson = some bytes →
    J.fromSlice bytes = .ok t.inner.sidecar ∧ files'.metaJson = some bytes
  fresh : files.metaJson = none → t.inner.sidecar = .empty tenantId embeddingDim ∧
    files'.metaJson = some (J.toVec t.inner.sidecar)

/-- What a failed `open` leaves: the stored vectors, and `meta.json` as it was or, when it did not
exist, cut short in its first write. -/
structure OpenFailed (J : SerdeJson) (tenantId : TenantId) (embeddingDim : UInt32)
    (files files' : Dir E) : Prop extends KeepsStored M files files' where
  metaJson : files'.metaJson = files.metaJson ∨
    files.metaJson = none ∧ ∃ n < (J.toVec (.empty tenantId embeddingDim)).length,
      files'.metaJson = some ((J.toVec (.empty tenantId embeddingDim)).take n)

/-- The two branches that start from an empty sidecar, once they have an index over `mid`. -/
theorem startEmpty_opened {mid : Dir E} {idx : E.Handle} (hnone : files.metaJson = none)
    (hmid : mid.metaJson = none) (hkeep : KeepsStored M files mid)
    (hatt : M.attached mid.engine idx) (hvec : M.vectors idx = M.stored files.engine)
    {r : Except TenantError (Tenant E)}
    (h : startEmpty J env dir tenantId embeddingDim idx mid = (files', r)) :
    (∃ e, r = .error e) ∧ OpenFailed M J tenantId embeddingDim files files' ∨
      ∃ t, r = .ok t ∧ Opened M J dir tenantId embeddingDim files files' t := by
  rcases startEmpty_cases J env dir tenantId embeddingDim idx mid with hok | ⟨content, e, herr, hc⟩
  · rw [hok, Prod.mk.injEq] at h
    obtain ⟨rfl, rfl⟩ := h
    refine Or.inr ⟨_, rfl, rfl, hatt, hvec, rfl, ?_, fun _ => ⟨rfl, rfl⟩⟩
    intro bytes hb
    rw [hnone] at hb
    simp at hb
  · rw [herr, Prod.mk.injEq] at h
    obtain ⟨rfl, rfl⟩ := h
    refine Or.inl ⟨⟨e, rfl⟩, ⟨hkeep.stored, hkeep.marks⟩, ?_⟩
    rcases hc with rfl | ⟨n, hn, rfl⟩
    · exact Or.inl (hmid.trans hnone.symm)
    · exact Or.inr ⟨hnone, n, hn, rfl⟩

/-- Every result of `open`, in terms of the model of the engine. -/
theorem open_cases {r : Except TenantError (Tenant E)}
    (h : «open» J env dir files tenantId embeddingDim = (files', r)) :
    (∃ e, r = .error e) ∧ OpenFailed M J tenantId embeddingDim files files' ∨
      ∃ t, r = .ok t ∧ Opened M J dir tenantId embeddingDim files files' t := by
  cases open_ends h with
  | stopped e => exact Or.inl ⟨⟨e, rfl⟩, KeepsStored.refl M files, Or.inl rfl⟩
  | unopened e hopen => exact Or.inl ⟨⟨e, rfl⟩, keepsStored_open M hopen, Or.inl rfl⟩
  | uncreated hmeta hindex hcreate =>
    refine Or.inl ⟨⟨_, rfl⟩, ⟨M.create_error hindex hcreate, ?_⟩, Or.inl rfl⟩
    intro hex
    rw [hindex] at hex
    simp at hex
  | reopened hmeta hparse hw hopen hdim =>
    obtain ⟨hatt, hvec⟩ := M.open_ok hopen
    refine Or.inr ⟨_, rfl, rfl, hatt, hvec, hw, ?_, ?_⟩
    · intro bytes hbytes
      rw [hmeta, Option.some.injEq] at hbytes
      subst hbytes
      exact ⟨hparse, hmeta⟩
    · intro hnone
      rw [hmeta] at hnone
      simp at hnone
  | @adopted engine idx _ _ hmeta hopen hdim hstart =>
    -- the index survived a crash before the first flush
    obtain ⟨hatt, hvec⟩ := M.open_ok hopen
    have hmid : ({ files with engine } : Dir E).metaJson = none := hmeta
    exact startEmpty_opened M hmeta hmid (keepsStored_open M hopen) hatt hvec hstart
  | @created engine idx _ _ hmeta hindex hcreate hstart =>
    -- without an index nothing is stored, before the creation or after it
    obtain ⟨hatt, hvec⟩ := M.create_ok hcreate
    have hstored : M.vectors idx = M.stored files.engine := hvec.trans (M.absent hindex).symm
    have hkeep : KeepsStored M files { files with engine } :=
      ⟨(M.durable hatt).trans hstored, fun _ => M.marks hatt⟩
    have hmid : ({ files with engine } : Dir E).metaJson = none := hmeta
    exact startEmpty_opened M hmeta hmid hkeep hatt hstored hstart

theorem open_ok {t : Tenant E}
    (h : «open» J env dir files tenantId embeddingDim = (files', .ok t)) :
    Opened M J dir tenantId embeddingDim files files' t := by
  rcases open_cases M h with ⟨⟨e, he⟩, -⟩ | ⟨t', ht', hopened⟩
  · simp at he
  · rw [Except.ok.inj ht']
    exact hopened

theorem open_error {e : TenantError}
    (h : «open» J env dir files tenantId embeddingDim = (files', .error e)) :
    OpenFailed M J tenantId embeddingDim files files' := by
  rcases open_cases M h with ⟨-, hfailed⟩ | ⟨t', ht', -⟩
  · exact hfailed
  · simp at ht'

/-- `openReadonlyAt` never changes `meta.json` and keeps the stored vectors; a handle it returns is
read-only, attached, and carries the sidecar read from the file. -/
theorem openReadonlyAt_cases {r : Except TenantError (Tenant E)}
    (h : openReadonlyAt J env dir files = (files', r)) :
    KeepsStored M files files' ∧ files'.metaJson = files.metaJson ∧
      ∀ t, r = .ok t → t.readOnly = true ∧ M.attached files'.engine t.inner.index ∧
        M.vectors t.inner.index = M.stored files.engine ∧
        ∃ bytes, files.metaJson = some bytes ∧ J.fromSlice bytes = .ok t.inner.sidecar := by
  cases openReadonlyAt_ends h with
  | stopped e => exact ⟨KeepsStored.refl M files, rfl, fun t ht => by simp at ht⟩
  | unopened e hopen => exact ⟨keepsStored_open M hopen, rfl, fun t ht => by simp at ht⟩
  | opened hmeta hparse hopen hdim =>
    obtain ⟨hatt, hvec⟩ := M.open_ok hopen
    refine ⟨keepsStored_open M hopen, rfl, ?_⟩
    intro t ht
    rw [← Except.ok.inj ht]
    exact ⟨rfl, hatt, hvec, _, hmeta, hparse⟩

/-! ## Writing -/

@[simp] theorem emit_inner (t : Tenant E) (e : Event) : (t.emit e).inner = t.inner := rfl
@[simp] theorem emit_readOnly (t : Tenant E) (e : Event) : (t.emit e).readOnly = t.readOnly := rfl

/-- The tenant with the records of its sidecar replaced. -/
def withRecords (t : Tenant E) (records : List RecordEntry) : Tenant E :=
  { t with inner := { t.inner with sidecar := { t.inner.sidecar with records } } }

/-- The tenant with its index handle replaced. -/
def withIndex (t : Tenant E) (index : E.Handle) : Tenant E :=
  { t with inner := { t.inner with index } }

/-- Every exit of `insertState`: it is refused, or it ends as the engine's insert does. -/
theorem insertState_ends {t t' : Tenant E} {env : E.Env} {r : Record F}
    {res : Except TenantError Unit} (h : insertState env files t r = (files', t', res)) :
    (files' = files ∧ t' = t ∧ ∃ e, res = .error e) ∨
      t.readOnly = false ∧ ∃ engine index ires,
        E.insert env files.engine t.inner.index r.recordId.val r.embedding =
          ((engine, index), ires) ∧ files' = { files with engine } ∧
        ((∃ e, ires = .error e ∧ res = .error (.io e)) ∧ t' = t.withIndex index ∨
          ires = .ok () ∧ res = .ok () ∧ t' = (t.withIndex index).withRecords
            (Keyed.upsert RecordEntry.recordId r.entry t.inner.sidecar.records)) := by
  -- the two refusals come before the engine call
  unfold insertState at h
  split at h
  · simp only [Prod.mk.injEq] at h
    exact Or.inl ⟨h.1.symm, h.2.1.symm, _, h.2.2.symm⟩
  · rename_i hro
    split at h
    · simp only [Prod.mk.injEq] at h
      exact Or.inl ⟨h.1.symm, h.2.1.symm, _, h.2.2.symm⟩
    · generalize E.insert env files.engine t.inner.index r.recordId.val r.embedding = call at h ⊢
      obtain ⟨⟨engine, index⟩, ires⟩ := call
      refine Or.inr ⟨by simpa using hro, engine, index, ires, rfl, ?_⟩
      cases ires with
      | error e =>
        simp only [Prod.mk.injEq] at h
        exact ⟨h.1.symm, Or.inl ⟨⟨e, rfl, h.2.2.symm⟩, h.2.1.symm⟩⟩
      | ok u =>
        simp only [Prod.mk.injEq] at h
        exact ⟨h.1.symm, Or.inr ⟨rfl, h.2.2.symm, h.2.1.symm⟩⟩

/-- What `insertState` does to the subscribers and the sidecar, for any engine. -/
theorem insertState_sidecar (env : E.Env) (files : Dir E) (t : Tenant E) (r : Record F) :
    (insertState env files t r).2.1.subscribers = t.subscribers ∧
      (insertState env files t r).2.1.inner.sidecar =
        match (insertState env files t r).2.2 with
        | .error _ => t.inner.sidecar
        | .ok () => { t.inner.sidecar with
          records := Keyed.upsert RecordEntry.recordId r.entry t.inner.sidecar.records } := by
  generalize h : insertState env files t r = o
  obtain ⟨files', t', res⟩ := o
  rcases insertState_ends h with ⟨-, rfl, e, rfl⟩ | ⟨-, engine, index, ires, -, -, hcase⟩
  · exact ⟨rfl, rfl⟩
  · rcases hcase with ⟨⟨e, -, rfl⟩, rfl⟩ | ⟨-, rfl, rfl⟩
    · exact ⟨rfl, rfl⟩
    · exact ⟨rfl, rfl⟩

/-- What `insertState` does on an attached tenant: it fails and leaves the vectors and the sidecar
as they were, or it stores the vector and the sidecar entry. -/
theorem insertState_cases {t t' : Tenant E} {env : E.Env} {r : Record F}
    {res : Except TenantError Unit} (hatt : M.attached files.engine t.inner.index)
    (h : insertState env files t r = (files', t', res)) :
    files'.metaJson = files.metaJson ∧ M.attached files'.engine t'.inner.index ∧
      ((∃ e, res = .error e) ∧ (∃ index, t' = t.withIndex index) ∧
          M.vectors t'.inner.index = M.vectors t.inner.index ∨
        res = .ok () ∧ t.readOnly = false ∧
          M.vectors t'.inner.index =
            Function.update (M.vectors t.inner.index) r.recordId.val (some r.embedding) ∧
          ∃ index, t' = (t.withIndex index).withRecords
            (Keyed.upsert RecordEntry.recordId r.entry t.inner.sidecar.records)) := by
  rcases insertState_ends h with
    ⟨rfl, rfl, he⟩ | ⟨hro, engine, index, ires, hins, rfl, hcase⟩
  · exact ⟨rfl, hatt, Or.inl ⟨he, ⟨t'.inner.index, rfl⟩, rfl⟩⟩
  · rcases hcase with ⟨⟨e, rfl, rfl⟩, rfl⟩ | ⟨rfl, rfl, rfl⟩
    · obtain ⟨hatt', hvec⟩ := M.insert_error hatt hins
      exact ⟨rfl, hatt', Or.inl ⟨⟨_, rfl⟩, ⟨index, rfl⟩, hvec⟩⟩
    · obtain ⟨hatt', hvec⟩ := M.insert_ok hatt hins
      exact ⟨rfl, hatt', Or.inr ⟨rfl, hro, hvec, index, rfl⟩⟩

/-- `insert` adds to `insertState` the broadcast of a successful call. -/
theorem insert_eq (env : E.Env) (files : Dir E) (t : Tenant E) (r : Record F) :
    insert env files t r =
      ((insertState env files t r).1,
        (match (insertState env files t r).2.2 with
          | .ok () => (insertState env files t r).2.1.emit (.recordInserted r.recordId r.shareable)
          | .error _ => (insertState env files t r).2.1),
        (insertState env files t r).2.2) := by
  unfold insert
  obtain ⟨files', t', res⟩ := insertState env files t r
  cases res <;> rfl

/-- An insert that succeeds upserts its sidecar entry; one that fails leaves the sidecar alone. -/
theorem insert_sidecar (env : E.Env) (files : Dir E) (t : Tenant E) (r : Record F) :
    (insert env files t r).2.1.inner.sidecar =
      match (insert env files t r).2.2 with
      | .ok () =>
        { t.inner.sidecar with
          records := Keyed.upsert RecordEntry.recordId r.entry t.inner.sidecar.records }
      | .error _ => t.inner.sidecar := by
  rw [insert_eq]
  have hsidecar := (insertState_sidecar env files t r).2
  generalize insertState env files t r = o at hsidecar
  obtain ⟨files', t', res⟩ := o
  cases res with
  | error e => exact hsidecar
  | ok u => exact hsidecar

/-- What `deleteState` does: nothing through a read-only handle, else it drops the entry. -/
theorem deleteState_cases (t : Tenant E) (id : RecordId) :
    (t.readOnly = true ∧ deleteState t id = (t, .error readOnlyError)) ∨
      (t.readOnly = false ∧ deleteState t id =
        (t.withRecords (Keyed.remove RecordEntry.recordId id.val t.inner.sidecar.records),
          .ok (decide (id.val ∈ t.inner.sidecar.ids)))) := by
  cases hro : t.readOnly with
  | true =>
    refine Or.inl ⟨rfl, ?_⟩
    simp [deleteState, hro]
  | false =>
    refine Or.inr ⟨rfl, ?_⟩
    -- the length comparison of the source decides membership
    have hmem : (Keyed.remove RecordEntry.recordId id.val t.inner.sidecar.records).length ≠
        t.inner.sidecar.records.length ↔ id.val ∈ t.inner.sidecar.ids :=
      Keyed.length_remove_ne_iff RecordEntry.recordId
    simp only [deleteState, hro, Bool.false_eq_true, if_false, withRecords, Prod.mk.injEq,
      Except.ok.injEq, true_and]
    exact decide_eq_decide.2 hmem

/-- `delete` adds to `deleteState` the broadcast when a record was removed. -/
theorem delete_inner (t : Tenant E) (id : RecordId) :
    (delete t id).1.inner = (deleteState t id).1.inner ∧
      (delete t id).1.readOnly = (deleteState t id).1.readOnly := by
  unfold delete
  generalize deleteState t id = o
  obtain ⟨t', res⟩ := o
  cases res with
  | error e => exact ⟨rfl, rfl⟩
  | ok removed => cases removed <;> exact ⟨rfl, rfl⟩

/-- How a flush ends on a read-write handle: `meta.json` holds the sidecar, or the call failed and
the file is as it was or holds a proper prefix. A read-only handle writes nothing. -/
theorem flush_cases (J : SerdeJson) (o : WriteOutcome) (files : Dir E) (t : Tenant E) :
    (t.readOnly = true ∧ flush J o files t = (files, .ok ())) ∨
    (t.readOnly = false ∧ flush J o files t =
      ({ files with metaJson := some (J.toVec t.inner.sidecar) }, .ok ())) ∨
    (t.readOnly = false ∧ ∃ content e,
      flush J o files t = ({ files with metaJson := content }, .error e) ∧
        (content = files.metaJson ∨ ∃ n < (J.toVec t.inner.sidecar).length,
          content = some ((J.toVec t.inner.sidecar).take n))) := by
  cases hro : t.readOnly with
  | true =>
    refine Or.inl ⟨rfl, ?_⟩
    simp [flush, hro]
  | false =>
    apply Or.inr
    rcases MetadataSidecar.writeToPath_cases J o t.inner.sidecar files.metaJson with
      h | ⟨content, e, h, hc⟩
    · refine Or.inl ⟨rfl, ?_⟩
      simp [flush, hro, h]
    · refine Or.inr ⟨rfl, content, e, ?_, hc⟩
      simp [flush, hro, h]

/-- Every exit of `consolidate`. -/
theorem consolidate_ends {t t' : Tenant E} {env : E.Env} {res : Except TenantError Unit}
    (h : consolidate env files t = (files', t', res)) :
    (files' = files ∧ t' = t) ∨ ∃ engine index cres,
      E.consolidate env files.engine t.inner.index = ((engine, index), cres) ∧
        files' = { files with engine } ∧ t' = t.withIndex index := by
  unfold consolidate at h
  split at h
  · simp only [Prod.mk.injEq] at h
    exact Or.inl ⟨h.1.symm, h.2.1.symm⟩
  · generalize E.consolidate env files.engine t.inner.index = call at h ⊢
    obtain ⟨⟨engine, index⟩, cres⟩ := call
    refine Or.inr ⟨engine, index, cres, rfl, ?_⟩
    cases cres with
    | error e =>
      simp only [Prod.mk.injEq] at h
      exact ⟨h.1.symm, h.2.1.symm⟩
    | ok u =>
      simp only [Prod.mk.injEq] at h
      exact ⟨h.1.symm, h.2.1.symm⟩

/-- `consolidate` touches only the engine and keeps the vectors. -/
theorem consolidate_cases {t t' : Tenant E} {env : E.Env} {res : Except TenantError Unit}
    (hatt : M.attached files.engine t.inner.index)
    (h : consolidate env files t = (files', t', res)) :
    files'.metaJson = files.metaJson ∧ M.attached files'.engine t'.inner.index ∧
      (∃ index, t' = t.withIndex index) ∧
        M.vectors t'.inner.index = M.vectors t.inner.index := by
  rcases consolidate_ends h with ⟨rfl, rfl⟩ | ⟨engine, index, cres, hcon, rfl, rfl⟩
  · exact ⟨rfl, hatt, ⟨t'.inner.index, rfl⟩, rfl⟩
  · obtain ⟨hatt', hvec⟩ := M.consolidate_any hatt hcon
    exact ⟨rfl, hatt', ⟨index, rfl⟩, hvec⟩

/-- The part of a snapshot that touches the tenant directory is its flush. -/
theorem snapshot_files (J : SerdeJson) (o : WriteOutcome) (env : CopyEnv) (files dest : Dir E)
    (t : Tenant E) :
    (snapshot J o env files dest t).1 =
      match env.createDirAll with
      | some _ => files
      | none => (t.flush J o files).1 := by
  unfold snapshot
  cases env.createDirAll with
  | some e => rfl
  | none =>
    dsimp only
    generalize t.flush J o files = fl
    obtain ⟨files', res⟩ := fl
    cases res with
    | error e => rfl
    | ok u =>
      dsimp only
      generalize copyDirContents env.fail files' env.order dest = cp
      obtain ⟨dest', cres⟩ := cp
      cases cres <;> rfl

end Tenant

end SkegRigging
