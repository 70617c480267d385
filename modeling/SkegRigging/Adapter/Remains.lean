import SkegRigging.Adapter.FileCopySpec
import SkegRigging.Adapter.TenantSpec
import SkegRigging.Reference.Files

/-!
# Directories with an index and without a sidecar

`index_exists` looks at the engine's marker files, `create_new` and `restore_from` look at
`meta.json` only. Over a directory that holds an index, or the remains of one, but no sidecar,
`create_new` goes on to the branch of `open` that adopts the index, and `restore_from` copies into
it. The first fails without a change exactly when that open stops by itself, the second is sure to
only when there is no snapshot (`remains_iff`).
-/

set_option autoImplicit false

namespace SkegRigging

open DiskVamanaIndex FileTree

variable {F S C : Type} {E : DiskVamanaIndex F S}

/-- A directory that holds an index, or the remains of one, but no sidecar. -/
structure Remains (files : Dir E) : Prop where
  metaJson : files.metaJson = none
  index : indexExists files.engine = true

namespace Tenant

/-- `open` stops over an index without changing a file: the directory cannot be created, or the
engine leaves its files as they are and refuses them, or serves another dimension, or the first
write of `meta.json` is refused. -/
def StopsOpen (env : OpenEnv E) (files : E.Files) (embeddingDim : UInt32) : Prop :=
  env.createDirAll.isSome = true ∨ ∃ r, E.openIndex env.engine files = (files, r) ∧
    match r with
    | .error _ => True
    | .ok idx => asU32 (E.dim idx) ≠ embeddingDim ∨ ∃ e, env.writeMeta = .refused e

section CreateNew

variable {J : SerdeJson} {env : OpenEnv E} {path : PathBuf} {files : Dir E} {tenantId : TenantId}
  {embeddingDim : UInt32}

/-- Over an index without a sidecar, `create_new` is the branch of `open` that adopts the index. -/
theorem createNew_adopt (h : Remains files) (hmk : env.createDirAll = none) :
    createNew J env path files tenantId embeddingDim =
      adopt J env path files tenantId embeddingDim := by
  have hbranch : branch files = .adopt := by simp [branch, h.metaJson, h.index]
  simp [createNew, «open», h.metaJson, hmk, hbranch]

/-- The write of an empty sidecar leaves no trace exactly when it is refused. -/
theorem startEmpty_stops_iff {idx : E.Handle} {mid : Dir E} (hfiles : files.metaJson = none) :
    (∃ e, startEmpty J env path tenantId embeddingDim idx mid = (files, .error e)) ↔
      mid = files ∧ ∃ e, env.writeMeta = .refused e := by
  have hsome : ∀ bytes, ({ mid with metaJson := some bytes } : Dir E) ≠ files := by
    rintro bytes rfl
    simp at hfiles
  cases hwrite : env.writeMeta with
  | done => simp [startEmpty, MetadataSidecar.writeToPath, fsWrite, hwrite]
  | refused e => simp [startEmpty, MetadataSidecar.writeToPath, fsWrite, hwrite]
  | stopped n e =>
    by_cases hn : n < (J.toVec (.empty tenantId embeddingDim)).length
    · simp [startEmpty, MetadataSidecar.writeToPath, fsWrite, hwrite, hn, hsome]
    · simp [startEmpty, MetadataSidecar.writeToPath, fsWrite, hwrite, hn]

theorem createNew_iff (h : Remains files) :
    (∃ e, createNew J env path files tenantId embeddingDim = (files, .error e)) ↔
      StopsOpen env files.engine embeddingDim := by
  cases hmk : env.createDirAll with
  | some e => simp [createNew, «open», h.metaJson, hmk, StopsOpen]
  | none =>
    rw [createNew_adopt h hmk, adopt, openEngine, StopsOpen, hmk]
    obtain ⟨engine, r⟩ := E.openIndex env.engine files.engine
    have hfiles : ({ files with engine } : Dir E) = files ↔ engine = files.engine := by
      constructor
      · intro heq
        rw [← heq]
      · rintro rfl
        rfl
    cases r with
    | error e => simp [hfiles]
    | ok idx =>
      by_cases hdim : asU32 (E.dim idx) = embeddingDim
      · simp [hdim, startEmpty_stops_iff h.metaJson, hfiles]
      · simp [hdim, hfiles]

/-- A tenant created over an index serves its vectors. -/
theorem createNew_adopts (M : E.Model) {files' : Dir E} {t : Tenant E}
    (h : createNew J env path files tenantId embeddingDim = (files', .ok t)) :
    M.vectors t.inner.index = M.stored files.engine := by
  unfold createNew at h
  split at h
  · simp at h
  · exact (open_ok M h).vectors

end CreateNew

end Tenant

namespace Fs

variable {K : FileFormat E C} {J : SerdeJson}

/-- Whatever the operating system does, a restore fails and leaves every file of the destination as
it was. -/
def LeavesDest (K : FileFormat E C) (J : SerdeJson) (env : OpenEnv E) (fs : FileTree String C)
    (srcPath destPath : PathBuf) : Prop :=
  ∀ (copy : FsEnv C) fuel fs' files' r, Covers copy.order fs srcPath.components →
    restoreFrom K J copy env fuel fs srcPath destPath = some (fs', files', r) →
    (∃ e, r = .error e) ∧ files' = dirAt K fs destPath.components ∧
      ∀ q, destPath.components <+: q → fs'.content q = fs.content q

/-- An index lies in a directory. -/
theorem dir_of_indexExists {fs : FileTree String C} {dest : List String}
    (h : indexExists (dirAt K fs dest).engine = true) : fs.node dest = some .dir := by
  have hdir : ∀ name, ((dirAt K fs dest).engine name).isSome = true → fs.node dest = some .dir := by
    intro name hname
    obtain ⟨x, hx⟩ := Option.isSome_iff_exists.1 hname
    simp only [dirAt] at hx
    split at hx
    · simp at hx
    · obtain ⟨c, hc, -⟩ := Option.map_eq_some_iff.1 hx
      exact dir_of_below (components_ne_nil name) (by rw [content_eq_some_iff.1 hc]; rfl)
  rw [indexExists, Bool.or_eq_true] at h
  rcases h with hkind | hcurrent
  · exact hdir _ hkind
  · exact hdir _ hcurrent

/-- The operating system may show `meta.json` first and fail then. -/
theorem leavesDest_iff {env : OpenEnv E} {fs : FileTree String C} {srcPath destPath : PathBuf}
    (hindex : indexExists (dirAt K fs destPath.components).engine = true)
    (hfree : fs.exists (metaPath destPath.components) = false)
    (hsnap : fs.exists (metaPath srcPath.components) = true →
      (fs.content (metaPath srcPath.components)).isSome = true) :
    LeavesDest K J env fs srcPath destPath ↔ fs.exists (metaPath srcPath.components) = false := by
  constructor
  · intro h
    by_contra hthere
    rw [Bool.not_eq_false] at hthere
    obtain ⟨c, hc⟩ := Option.isSome_iff_exists.1 (hsnap hthere)
    have hdest := dir_of_indexExists hindex
    have hnone : fs.node (metaPath destPath.components) = none := by
      simpa [FileTree.exists] using hfree
    obtain ⟨order, horder⟩ := exists_lists fs srcPath.components
    obtain ⟨fs', r, hcopy, hcontent⟩ : ∃ fs' r, copyDirContents K.empty
        (leading order (metaPath srcPath.components) notFound) 1 fs srcPath.components
        destPath.components = some (fs', r) ∧
        fs'.content (destPath.components ++ [] ++ ["meta.json"]) =
          some (if metaPath srcPath.components = destPath.components ++ [] ++ ["meta.json"]
            then K.empty else c) := by
      apply leading_copies (by simp [metaPath]) hc
      · rw [List.append_nil]
        exact writable_of_none hdest hnone
      · exact Nat.zero_lt_one
    have hmk : createDirAll none fs destPath.components = (fs, .ok ()) := by
      rw [createDirAll, if_pos (canMake_of_dir hdest), makeDirs_of_dir hdest]
    have hcreate : (leading order (metaPath srcPath.components) notFound : FsEnv C).createDir
        destPath.components = none := rfl
    obtain ⟨files', res, hrun⟩ : ∃ files' res, restoreFrom K J
        (leading order (metaPath srcPath.components) notFound) env 1 fs srcPath destPath =
        some (fs', files', res) := by
      simp only [restoreFrom, populated, hfree, hthere, hcreate, hmk, hcopy, Bool.false_eq_true,
        Bool.true_eq_false, if_false]
      cases r with
      | error e => exact ⟨_, _, rfl⟩
      | ok u =>
        dsimp only
        split
        · exact ⟨_, _, rfl⟩
        · exact ⟨_, _, rfl⟩
    have hsame := (h _ _ _ _ _ (leading_lists horder hthere).covers hrun).2.2
      (metaPath destPath.components) (List.prefix_append _ _)
    rw [List.append_nil] at hcontent
    rw [metaPath, hcontent, ← metaPath, content, hnone] at hsame
    simp at hsame
  · intro hgone copy fuel fs' files' r _ h
    simp only [restoreFrom, populated, hfree, hgone, Bool.false_eq_true, if_false, if_true,
      Option.some.injEq, Prod.mk.injEq] at h
    obtain ⟨rfl, rfl, rfl⟩ := h
    exact ⟨⟨_, rfl⟩, rfl, fun _ _ => rfl⟩

/-- Over a directory that holds an index, or the remains of one, but no sidecar: `create_new` fails
and leaves every file exactly when the `open` it goes on to stops by itself, and `restore_from` of a
snapshot whose `meta.json`, if there is one, is a file does so, whatever the operating system does,
exactly when there is none. -/
theorem remains_iff (K : FileFormat E C) (J : SerdeJson) (env : OpenEnv E) :
    (∀ (path : PathBuf) (files : Dir E) (tenantId : TenantId) (embeddingDim : UInt32),
      Remains files →
      ((∃ e, Tenant.createNew J env path files tenantId embeddingDim = (files, .error e)) ↔
        Tenant.StopsOpen env files.engine embeddingDim)) ∧
    ∀ (fs : FileTree String C) (srcPath destPath : PathBuf),
      indexExists (dirAt K fs destPath.components).engine = true →
      fs.exists (metaPath destPath.components) = false →
      (fs.exists (metaPath srcPath.components) = true →
        (fs.content (metaPath srcPath.components)).isSome = true) →
      (LeavesDest K J env fs srcPath destPath ↔
        fs.exists (metaPath srcPath.components) = false) :=
  ⟨fun _ _ _ _ h => Tenant.createNew_iff h, fun _ _ _ hindex hfree hsnap =>
    leavesDest_iff hindex hfree hsnap⟩

section Leftover

open Reference

/-- The index of an earlier tenant. -/
def leftover : Dir engine where
  metaJson := none
  engine := writeIndex (fun _ => none) ((Log.empty 1).insert 1 [5])

/-- The same directory in a file system, and a snapshot that was cut short after `meta.json`. -/
def leftoverTree : FileTree String (Bytes ⊕ Log) :=
  saved snapshotHome.components "meta.json"
    (.inl (json.toVec ⟨.zero, 1, [⟨1, true, ["other"], [7]⟩]⟩))
    ((saved home.components "CURRENT" (.inr (.empty 0))
      (saved home.components "delta.log" (.inr ((Log.empty 1).insert 1 [5]))
        (saved home.components "tier.kind" (.inr (.empty 0))
          (bare.makeDirs home.components)))).makeDirs snapshotHome.components)

def snapshotOrder (dir : List String) : List String :=
  if dir = snapshotHome.components then ["meta.json"] else []

/-- Only the wrong dimension stops `create_new`, and nothing stops the restore. -/
theorem remains_iff_example :
    (¬ ∃ e, Tenant.createNew json quiet home leftover .zero 1 = (leftover, .error e)) ∧
    (∃ e, Tenant.createNew json quiet home leftover .zero 2 = (leftover, .error e)) ∧
    ¬ LeavesDest plain json quiet leftoverTree snapshotHome home := by
  have hremains : Remains leftover := ⟨rfl, rfl⟩
  have hopen : engine.openIndex quiet.engine leftover.engine =
      (leftover.engine, .ok ((Log.empty 1).insert 1 [5])) := rfl
  obtain ⟨hcreate, hrestore⟩ := remains_iff plain json quiet
  refine ⟨?_, ?_, ?_⟩
  · rw [hcreate _ _ _ _ hremains]
    rintro (hmk | ⟨r, hr, hstop⟩)
    · simp [quiet] at hmk
    · rw [hopen, Prod.mk.injEq] at hr
      rw [← hr.2] at hstop
      rcases hstop with hdim | ⟨e, he⟩
      · exact hdim rfl
      · simp [quiet] at he
  · exact (hcreate _ _ _ _ hremains).2 (Or.inr ⟨_, hopen, Or.inl (by decide)⟩)
  · rw [hrestore leftoverTree snapshotHome home (by decide +kernel) (by decide +kernel)
      fun _ => by decide +kernel]
    decide +kernel

/-- `create_new` returns a tenant that serves the vector of the earlier one, and so does a restore
of a snapshot that has no index at all. -/
theorem remains_adopted :
    (∃ files' t, Tenant.createNew json quiet home leftover .zero 1 = (files', .ok t) ∧
      model.vectors t.inner.index 1 = some [5]) ∧
    ∃ fs' files' t, restoreFrom plain json (calm snapshotOrder) quiet 2 leftoverTree snapshotHome
        home = some (fs', files', .ok t) ∧
      t.inner.sidecar.ids = [1] ∧ model.vectors t.inner.index 1 = some [5] := by
  refine ⟨⟨_, _, rfl, rfl⟩, ?_⟩
  have hrun : (restoreFrom plain json (calm snapshotOrder) quiet 2 leftoverTree snapshotHome
      home).any (fun r =>
        match r.2.2 with
        | .ok t => decide (t.inner.sidecar.ids = [1] ∧ model.vectors t.inner.index 1 = some [5])
        | .error _ => false) = true := by
    decide +kernel
  obtain ⟨⟨fs', files', res⟩, hrun, hr⟩ := (Option.any_eq_true ..).1 hrun
  cases res with
  | error e => simp at hr
  | ok t =>
    obtain ⟨hids, hvector⟩ := of_decide_eq_true hr
    exact ⟨fs', files', t, hrun, hids, hvector⟩

end Leftover

end Fs

end SkegRigging
