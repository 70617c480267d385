import SkegRigging.Adapter.Dimensions
import SkegRigging.Adapter.FullCopy
import SkegRigging.Adapter.SidecarWrite
import SkegRigging.Reference.Files

/-!
# Restoring a snapshot

A snapshot into a new directory and a restore of it into another one give back the tenant: the
sidecar that the source had in memory, flushed or not, and the vectors of its index
(`restore_undoes_snapshot`). Both copies take the directory as it is, with the engine's
subdirectories; no file outside the two new directories changes but the source's `meta.json`.
-/

set_option autoImplicit false

namespace SkegRigging.Fs

open DiskVamanaIndex FileTree

variable {F S C : Type} {E : DiskVamanaIndex F S}

/-! ## The directory at a path -/

section DirAt

variable {K : FileFormat E C} {fs fs' : FileTree String C} {src dest : List String}

/-- A path of one component is the name of its file. -/
theorem eq_of_components {name n : String} (hname : components name = [n]) : name = n := by
  obtain ⟨chars, hchars⟩ : ∃ chars, name.toList.splitOn '/' = [chars] := by
    rw [components, List.map_eq_singleton_iff] at hname
    obtain ⟨chars, hsplit, -⟩ := hname
    exact ⟨chars, hsplit⟩
  have hjoin : ['/'].intercalate (name.toList.splitOn '/') = name.toList :=
    List.intercalate_splitOn '/'
  rw [hchars] at hjoin
  rw [components, hchars, List.map_singleton, List.singleton_inj] at hname
  rw [← hname, ← String.ofList_toList (s := name), ← hjoin]
  simp

theorem components_of_not_mem {name : String} (h : '/' ∉ name.toList) :
    components name = [name] := by
  rw [components, List.splitOn_eq_singleton h, List.map_singleton, String.ofList_toList]

/-- The view of a directory depends on what is below it. -/
theorem dirAt_congr (h : ∀ r, r ≠ [] → fs'.content (dest ++ r) = fs.content (src ++ r)) :
    dirAt K fs' dest = dirAt K fs src := by
  have hmeta : fs'.content (metaPath dest) = fs.content (metaPath src) := h _ (by simp)
  have hengine : ∀ name, fs'.content (dest ++ components name) =
      fs.content (src ++ components name) := fun name => h _ (components_ne_nil name)
  simp only [dirAt, hmeta, hengine]

theorem dirAt_copied (h : DirCopied fs fs' src dest) : dirAt K fs' dest = dirAt K fs src := by
  apply dirAt_congr
  intro r hr
  rw [content, content, h.below r hr]
  rcases fs.node (src ++ r) with - | (- | c | -) <;> rfl

/-- A write of `meta.json`. -/
theorem dirAt_put (bytes : Bytes) (h : fs.Writable src "meta.json") :
    dirAt K (fs.put src "meta.json" (K.ofText bytes) h) src =
      { dirAt K fs src with metaJson := some bytes } := by
  have hmeta : (fs.put src "meta.json" (K.ofText bytes) h).content (metaPath src) =
      some (K.ofText bytes) := content_put_self
  have hengine : ∀ name, name ≠ "meta.json" →
      (fs.put src "meta.json" (K.ofText bytes) h).content (src ++ components name) =
        fs.content (src ++ components name) := by
    intro name hname
    apply content_put_of_ne
    rw [Ne, List.append_cancel_left_eq]
    exact fun hone => hname (eq_of_components hone)
  simp only [dirAt, hmeta, Option.map_some, K.text_ofText]
  congr 1
  funext name
  split
  · rfl
  · rename_i hname
    rw [hengine name hname]

end DirAt

/-! ## The two copies -/

/-- A new directory: it can be made, and nothing is in it. -/
structure Fresh (fs : FileTree String C) (p : List String) : Prop where
  make : fs.CanMake p
  empty : EmptyBelow fs p

/-- A new directory is empty once it is made. -/
theorem Fresh.make_below {fs : FileTree String C} {p : List String} (h : Fresh fs p) :
    EmptyBelow (fs.makeDirs p) p := by
  intro r hr
  rw [node_makeDirs_below (List.prefix_refl p) hr]
  exact h.empty r hr

/-- A new directory is apart from a directory that it does not lie in. -/
theorem Fresh.apart {fs : FileTree String C} {p q : List String} (h : Fresh fs p)
    (hq : fs.node q = some .dir) (houtside : ¬ q <+: p) : Apart q p :=
  apart_of_empty hq h.empty houtside

section Copies

variable {K : FileFormat E C} {J : SerdeJson} {fs : FileTree String C} {t : Tenant E}
  {out back : FsEnv C} {src dest : List String} {k fuel : Nat}

/-- What comes before the copy of a snapshot: the directory is made and the sidecar written. -/
theorem prepare_fresh (hrw : t.readOnly = false) (hcreate : out.createDir dest = none)
    (hmake : fs.CanMake dest) (hw : (fs.makeDirs dest).Writable t.dir.components "meta.json") :
    prepare K J .done out fs t dest =
      ((fs.makeDirs dest).put t.dir.components "meta.json"
        (K.ofText (J.toVec t.inner.sidecar)) hw, .ok ()) := by
  have hmk : (if fs.exists dest then (fs, .ok ())
      else createDirAll (out.createDir dest) fs dest) =
        ((fs.makeDirs dest, .ok ()) : FileTree String C × Except IoError Unit) := by
    rcases hmake dest (List.prefix_refl _) with hnone | hdir
    · rw [if_neg (by simp [FileTree.exists, hnone]), hcreate, createDirAll, if_pos hmake]
    · rw [if_pos (by simp [FileTree.exists, hdir]), makeDirs_of_dir hdir]
  simp only [prepare, hmk, flush, hrw, dif_pos hw, MetadataSidecar.writeToPath, fsWrite,
    Bool.false_eq_true, if_false]

/-- A snapshot into a new directory outside the tenant's, of a tenant that has a `meta.json`. -/
theorem snapshot_full (hrw : t.readOnly = false) (hout : Quiet out)
    (hmeta : (fs.content (metaPath t.dir.components)).isSome = true) (hfresh : Fresh fs dest)
    (houtside : ¬ t.dir.components <+: dest) (hlists : Lists out.order fs t.dir.components)
    (hdepth : DepthLE fs t.dir.components k) (hfuel : k < fuel) :
    ∃ fs₁, snapshot K J .done out fuel fs t dest = some (fs₁, .ok ()) ∧
      dirAt K fs₁ dest = { dirAt K fs t.dir.components with
        metaJson := some (J.toVec t.inner.sidecar) } ∧
      fs₁.content (metaPath t.dir.components) = some (K.ofText (J.toVec t.inner.sidecar)) ∧
      (∀ q, Apart dest q → q ≠ metaPath t.dir.components → fs₁.node q = fs.node q) ∧
      DepthLE fs₁ dest k := by
  obtain ⟨m, hm⟩ := Option.isSome_iff_exists.1 hmeta
  have hfile := content_eq_some_iff.1 hm
  have hhome : fs.node t.dir.components = some .dir := by
    apply fs.parent _ "meta.json"
    rw [← metaPath, hfile]
    rfl
  have hapart : Apart t.dir.components dest := hfresh.apart hhome houtside
  -- making the destination leaves the tenant directory alone
  have hmade : ∀ r, (fs.makeDirs dest).node (t.dir.components ++ r) =
      fs.node (t.dir.components ++ r) := fun r =>
    node_makeDirs_of_not_above fun hle => houtside ((List.prefix_append _ r).trans hle)
  have hm' : (fs.makeDirs dest).content (t.dir.components ++ ["meta.json"]) = some m :=
    (content_congr (hmade ["meta.json"])).trans hm
  have hw : (fs.makeDirs dest).Writable t.dir.components "meta.json" := writable_of_file hm'
  have hprep := prepare_fresh (K := K) (J := J) hrw (hout.createDir dest) hfresh.make hw
  generalize hput : (fs.makeDirs dest).put t.dir.components "meta.json"
    (K.ofText (J.toVec t.inner.sidecar)) hw = fs₀ at hprep
  have hexists : ∀ r, fs₀.exists (t.dir.components ++ r) = fs.exists (t.dir.components ++ r) := by
    intro r
    rw [← hput, exists_put_of_file hm', FileTree.exists, FileTree.exists, hmade]
  have hdirs : ∀ r, fs₀.node (t.dir.components ++ r) = some .dir →
      fs.node (t.dir.components ++ r) = some .dir := by
    intro r hr
    rw [← hput] at hr
    rw [← hmade]
    exact dir_of_put hr
  have hsrc : fs₀.node t.dir.components = some .dir := by
    rw [← hput, node_put_of_ne (by simp)]
    exact hw.dir
  have hbeyond : ∀ r, fs₀.node (dest ++ r) = (fs.makeDirs dest).node (dest ++ r) := by
    intro r
    rw [← hput, node_put_of_ne (hapart.symm.append r _).ne]
  have hdest : fs₀.node dest = some .dir := by
    have hself := hbeyond []
    rw [List.append_nil] at hself
    rw [hself, node_makeDirs_self]
  have hempty : EmptyBelow fs₀ dest := by
    intro r hr
    rw [hbeyond]
    exact hfresh.make_below r hr
  obtain ⟨fs₁, hcopy, hcopied⟩ : ∃ fs₁, copyDirContents K.empty out fuel fs₀ t.dir.components dest =
      some (fs₁, .ok ()) ∧ DirCopied fs₀ fs₁ t.dir.components dest :=
    copyDirContents_full hout hapart hsrc hdest hempty (hlists.of_dirs hdirs hexists)
      (hdepth.of_exists fun r hr => hexists r ▸ hr) hfuel
  refine ⟨fs₁, ?_, ?_, ?_, ?_, ?_⟩
  · rw [snapshot, hprep]
    dsimp only
    rw [hcopy]
  · rw [dirAt_copied hcopied, ← hput, dirAt_put, dirAt_congr fun r _ => content_congr (hmade r)]
  · have hkept : fs₁.node (metaPath t.dir.components) = fs₀.node (metaPath t.dir.components) :=
      hcopied.frame _ fun n => (hapart.symm.append [n] _).1
    rw [content_congr hkept, ← hput]
    exact content_put_self
  · intro q hq hne
    have hkept : fs₁.node q = fs₀.node q :=
      hcopied.frame _ fun n hle => hq.1 ((List.prefix_append dest [n]).trans hle)
    rw [hkept, ← hput, node_put_of_ne hne, node_makeDirs_of_not_above hq.2]
  · exact hcopied.depth (hdepth.of_exists fun r hr => hexists r ▸ hr)

/-- The sidecar is read from the directory's `meta.json`. -/
theorem readSidecar_of_dirAt {fail : Option IoError} {bytes : Bytes}
    (h : (dirAt K fs dest).metaJson = some bytes) :
    readSidecar K J fail fs (metaPath dest) =
      MetadataSidecar.readFromPath J fail (some bytes) := by
  obtain ⟨c, hc, rfl⟩ := Option.map_eq_some_iff.1 h
  rw [readSidecar, content_eq_some_iff.1 hc]

/-- A restore of a directory with a sidecar into a new one opens a copy of it. -/
theorem restoreFrom_full {env : OpenEnv E} {srcPath destPath : PathBuf} {bytes : Bytes}
    {w : MetadataSidecar} (hback : Quiet back) (hfresh : Fresh fs destPath.components)
    (hapart : Apart srcPath.components destPath.components)
    (hlists : Lists back.order fs srcPath.components) (hdepth : DepthLE fs srcPath.components k)
    (hfuel : k < fuel) (hread : env.readMeta = none)
    (hmeta : (dirAt K fs srcPath.components).metaJson = some bytes)
    (hparse : J.fromSlice bytes = .ok w) :
    ∃ fs', restoreFrom K J back env fuel fs srcPath destPath =
        some (fs', Tenant.open J env destPath (dirAt K fs srcPath.components) w.tenantId
          w.embeddingDim) ∧
      ∀ q, Apart destPath.components q → fs'.node q = fs.node q := by
  obtain ⟨c, hc, -⟩ := Option.map_eq_some_iff.1 hmeta
  have hfile := content_eq_some_iff.1 hc
  have hunpopulated : populated fs destPath.components = false := by
    rw [populated, FileTree.exists, metaPath, hfresh.empty _ (by simp)]
    rfl
  have hthere : fs.exists (metaPath srcPath.components) = true := by
    rw [FileTree.exists, hfile]
    rfl
  have hmade : ∀ r, (fs.makeDirs destPath.components).node (srcPath.components ++ r) =
      fs.node (srcPath.components ++ r) := fun r =>
    node_makeDirs_of_not_above fun hle => hapart.1 ((List.prefix_append _ r).trans hle)
  have hsrc : (fs.makeDirs destPath.components).node srcPath.components = some .dir :=
    (fs.makeDirs destPath.components).parent _ "meta.json" (by rw [hmade, ← metaPath, hfile]; rfl)
  obtain ⟨fs', hcopy, hcopied⟩ : ∃ fs', copyDirContents K.empty back fuel
      (fs.makeDirs destPath.components) srcPath.components destPath.components =
        some (fs', .ok ()) ∧
      DirCopied (fs.makeDirs destPath.components) fs' srcPath.components destPath.components :=
    copyDirContents_full hback hapart hsrc node_makeDirs_self hfresh.make_below
      (hlists.congr hmade) (hdepth.congr hmade) hfuel
  have hview : dirAt K fs' destPath.components = dirAt K fs srcPath.components :=
    (dirAt_copied hcopied).trans (dirAt_congr fun r _ => content_congr (hmade r))
  have hsidecar : readSidecar K J env.readMeta fs' (metaPath destPath.components) = .ok w := by
    rw [readSidecar_of_dirAt (hview ▸ hmeta), hread]
    simp only [MetadataSidecar.readFromPath, hparse]
  refine ⟨fs', ?_, ?_⟩
  · simp only [restoreFrom, hunpopulated, hthere, hback.createDir, createDirAll, hfresh.make,
      hcopy, hsidecar, hview, Bool.false_eq_true, Bool.true_eq_false, if_false, if_true]
  · intro q hq
    have hkept : fs'.node q = (fs.makeDirs destPath.components).node q :=
      hcopied.frame _ fun n hle => hq.1 ((List.prefix_append _ [n]).trans hle)
    rw [hkept, node_makeDirs_of_not_above hq.2]

end Copies

/-! ## The round trip -/

/-- The open of a directory is not disturbed: no call of the operating system fails, and the engine
opens the files of an open index again, with its dimension. -/
structure OpensAlike (M : E.Model) (env : OpenEnv E) : Prop where
  createDirAll : env.createDirAll = none
  readMeta : env.readMeta = none
  engine : ∀ files h, M.attached files h → ∃ files' h', E.openIndex env.engine files =
    (files', .ok h') ∧ E.dim h' = E.dim h

/-- For every read-write tenant that a session can reach, a snapshot into a new directory outside
the tenant's succeeds, and so does a restore of it into a new directory apart from the snapshot. The
restored tenant has the sidecar the source had in memory and the vectors of its index. Of what is
outside the new directory and not above it, the snapshot changes the source's `meta.json`, which is
flushed, and the restore nothing. -/
theorem restore_undoes_snapshot (M : E.Model) {J : SerdeJson} (hJ : J.Laws) (hE : KeepsDim E)
    (K : FileFormat E C) (home : PathBuf) (ops : List (Session.Op E)) {t : Tenant E}
    (ht : (Session.runs J home ops).handle = some t) (hrw : t.readOnly = false)
    {fs : FileTree String C} (hhome : dirAt K fs home.components = (Session.runs J home ops).files)
    {out : FsEnv C} (hout : Quiet out) {src : PathBuf} (hsrc : Fresh fs src.components)
    (houtside : ¬ home.components <+: src.components)
    (hlists : Lists out.order fs home.components) {k fuel : Nat}
    (hdepth : DepthLE fs home.components k) (hfuel : k < fuel) :
    ∃ fs₁, snapshot K J .done out fuel fs t src.components = some (fs₁, .ok ()) ∧
      fs₁.content (metaPath home.components) = some (K.ofText (J.toVec t.inner.sidecar)) ∧
      (∀ q, Apart src.components q → q ≠ metaPath home.components → fs₁.node q = fs.node q) ∧
      ∀ (back : FsEnv C) (env : OpenEnv E) (dest : PathBuf), Quiet back → OpensAlike M env →
        Fresh fs₁ dest.components → Apart src.components dest.components →
        Lists back.order fs₁ src.components →
        ∃ fs₂ files t', restoreFrom K J back env fuel fs₁ src dest = some (fs₂, files, .ok t') ∧
          t' = Tenant.handle dest t'.inner.index t.inner.sidecar t.inner.sidecar.tenantId
            t.embeddingDim ∧
          M.vectors t'.inner.index = M.vectors t.inner.index ∧
          ∀ q, Apart dest.components q → fs₂.node q = fs₁.node q := by
  have hsized := Session.runs_sized hE J home ops t ht
  have hattached := ((Session.runs_inv (M := M) hJ home ops).held t ht).attached
  have hpresent := Session.runs_metaJson M hJ home ops ht
  obtain rfl := hsized.dir
  have hmeta : (fs.content (metaPath t.dir.components)).isSome = true := by
    rw [← hhome] at hpresent
    simpa [dirAt] using hpresent
  obtain ⟨fs₁, hsnap, hview, hflushed, hframe, hdepth₁⟩ := snapshot_full (K := K) (J := J) hrw hout
    hmeta hsrc houtside hlists hdepth hfuel
  refine ⟨fs₁, hsnap, hflushed, hframe, ?_⟩
  intro back env dest hback hopens hdest hapart hlists₁
  have hsidecar : (dirAt K fs₁ src.components).metaJson = some (J.toVec t.inner.sidecar) := by
    rw [hview]
  have hengine : (dirAt K fs₁ src.components).engine = (Session.runs J t.dir ops).files.engine := by
    rw [hview, hhome]
  obtain ⟨fs₂, hrestore, hframe₂⟩ := restoreFrom_full (K := K) (J := J) hback hdest hapart hlists₁
    hdepth₁ hfuel hopens.readMeta hsidecar (hJ.roundTrip _)
  -- the engine opens the copied files as it would open those of the source
  have hopenable : Tenant.OpensEngine env (dirAt K fs₁ src.components).engine
      t.inner.sidecar.embeddingDim := by
    obtain ⟨files', idx, hopen, hdim⟩ := hopens.engine _ _ hattached
    refine ⟨hopens.createDirAll, hopens.readMeta, files', idx, hengine ▸ hopen, ?_⟩
    rw [hdim, hsized.index, hsized.sidecar]
  obtain ⟨t', hopened, hsame⟩ : ∃ t', (Tenant.open J env dest (dirAt K fs₁ src.components)
      t.inner.sidecar.tenantId t.inner.sidecar.embeddingDim).2 = .ok t' ∧
        t'.inner.sidecar = t.inner.sidecar :=
    (Tenant.opens_of_parse hopenable hsidecar (hJ.roundTrip _) rfl _).1
  generalize hr : Tenant.open J env dest (dirAt K fs₁ src.components) t.inner.sidecar.tenantId
    t.inner.sidecar.embeddingDim = r at hrestore hopened
  obtain ⟨files, res⟩ := r
  cases hopened
  have hok := Tenant.open_ok M hr
  refine ⟨fs₂, files, t', hrestore, ?_, ?_, hframe₂⟩
  · rw [← hsized.sidecar, ← hsame]
    exact hsame ▸ hok.handle
  · rw [hok.vectors, hengine]
    exact M.durable hattached

section Home

open Reference

theorem keepsDim_engine : KeepsDim engine where
  create h := by
    rcases createEmpty_cases h with ⟨-, hr⟩ | ⟨-, hr⟩
    · simp at hr
    · cases hr
      rfl
  insert h := by
    rcases insert_cases h with ⟨-, rfl, -⟩ | ⟨-, rfl, -⟩ <;> rfl
  consolidate h := by rw [(consolidate_cases h).1]

/-- The operations that lead to the stocked tenant. -/
def stocking : List (Session.Op engine) :=
  [.open quiet .zero 1, .insert false ⟨⟨1⟩, [5], true, ["note"], [104, 105]⟩]

theorem handle_stocking : (Session.runs json home stocking).handle = some stocked := rfl

theorem opensAlike_quiet : OpensAlike model quiet := by
  refine ⟨rfl, rfl, ?_⟩
  intro files log hlog
  refine ⟨files, log, ?_, rfl⟩
  have hread : readIndex files = some log := hlog
  simp only [engine, Reference.openIndex, hread, quiet, Bool.false_eq_true, if_false]

/-- The directory on disk is that of the session. -/
theorem dirAt_homeTree :
    dirAt plain homeTree home.components = (Session.runs json home stocking).files := by
  have hfiles : (Session.runs json home stocking).files =
      { metaJson := some (json.toVec (.empty .zero 1)),
        engine := writeIndex (writeIndex (fun _ => none) (Log.empty 1))
          ((Log.empty 1).insert 1 [5]) } := rfl
  have hmeta : homeTree.content (metaPath home.components) =
      some (.inl (json.toVec (.empty .zero 1))) :=
    content_eq_some_iff.2 ((node_homeTree ["meta.json"]).trans (by simp))
  have hother : ∀ name n, name ≠ n → components name ≠ [n] :=
    fun name n hne hname => hne (eq_of_components hname)
  rw [hfiles, dirAt, hmeta]
  congr 1
  funext name
  rw [content, node_homeTree]
  by_cases hcur : name = "CURRENT"
  · rw [hcur, components_of_not_mem (by decide)]
    rfl
  by_cases hlog : name = "delta.log"
  · rw [hlog, components_of_not_mem (by decide)]
    rfl
  by_cases hkind : name = "tier.kind"
  · rw [hkind, components_of_not_mem (by decide)]
    rfl
  by_cases hmeta' : name = "meta.json"
  · rw [hmeta']
    rfl
  simp [hcur, hlog, hkind, hmeta', hother, components_ne_nil, writeIndex]
  rfl

/-- A path under which nothing is can be made a new directory. -/
theorem fresh_of_none {C : Type} {fs : FileTree String C} {p : List String} (hmake : fs.CanMake p)
    (hnone : fs.node p = none) : Fresh fs p :=
  ⟨hmake, fun r hr => none_below hr (by rw [hnone]; simp)⟩

theorem restore_undoes_snapshot_example : ∃ out back fs₁ fs₂ files t',
    snapshot plain json .done (calm out) 2 homeTree stocked snapshotHome.components =
        some (fs₁, .ok ()) ∧
      restoreFrom plain json (calm back) quiet 2 fs₁ snapshotHome restoredHome =
        some (fs₂, files, .ok t') ∧
      t' = Tenant.handle restoredHome t'.inner.index stocked.inner.sidecar .zero 1 ∧
      model.vectors t'.inner.index 1 = some [5] := by
  obtain ⟨out, hout⟩ := exists_lists homeTree home.components
  have hsrc : Fresh homeTree snapshotHome.components :=
    fresh_of_none (by decide +kernel) (by decide +kernel)
  obtain ⟨fs₁, hsnap, -, hframe, hrestore⟩ := restore_undoes_snapshot model json_laws
    keepsDim_engine plain home stocking handle_stocking rfl dirAt_homeTree (quiet_calm out) hsrc
    (by decide) hout depth_homeTree (Nat.lt_succ_self 1)
  obtain ⟨back, hback⟩ := exists_lists fs₁ snapshotHome.components
  -- the snapshot wrote nothing at the second directory
  have hnone : fs₁.node restoredHome.components = none := by
    rw [hframe _ (by decide) (by decide)]
    decide +kernel
  have hmake : fs₁.CanMake restoredHome.components := by
    intro q hq
    have hq' : q <+: [] ++ ["restored"] := hq
    rcases List.prefix_concat_iff.1 hq' with rfl | hq
    · exact Or.inl hnone
    · rw [List.prefix_nil.1 hq]
      exact Or.inr fs₁.root
  obtain ⟨fs₂, files, t', hrun, hhandle, hvec, -⟩ := hrestore (calm back) quiet restoredHome
    (quiet_calm back) opensAlike_quiet (fresh_of_none hmake hnone) (by decide) hback
  exact ⟨out, back, fs₁, fs₂, files, t', hsnap, hrun, hhandle, congrFun hvec 1⟩

end Home

end SkegRigging.Fs
