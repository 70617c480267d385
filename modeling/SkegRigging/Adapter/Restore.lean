import SkegRigging.Adapter.FileCopySpec
import SkegRigging.Reference.Files

/-!
# A restore that fails

`meta.json` is a file like the others to `copy_dir_contents`, and its presence is what the first
check of `restore_from` looks at. A restore that fails can be repeated exactly when it stops before
it makes that entry of the destination (`retry_iff`): afterwards a second restore is refused, and
what was copied may open as a tenant.
-/

set_option autoImplicit false

namespace SkegRigging.Fs

open FileTree

variable {F S C : Type} {E : DiskVamanaIndex F S}

/-! ## The loop and the entry `meta.json` -/

/-- The entries that are enumerated before `meta.json`. -/
def beforeMeta (names : List String) : List String := names.takeWhile (· ≠ "meta.json")

/-- The copy of the entry `meta.json` makes something in the destination: a file that is complete or
cut short, or a directory. -/
def MakesMeta (env : FsEnv C) (fs : FileTree String C) (src dest : List String) : Prop :=
  env.entry (metaPath src) = none ∧
    match fs.node (metaPath src) with
    | some (.file _) => ∀ e, env.copy (metaPath src) ≠ .refused e
    | some .dir => env.createDir (metaPath dest) = none
    | some .special => False
    | none => False

section Loop

variable {empty : C} {env : FsEnv C} {fs fs' : FileTree String C} {src dest : List String}

/-- What is there stays there, and of the same kind. -/
theorem MakesMeta.congr (h : Extends fs fs') (hthere : fs.exists (metaPath src) = true) :
    MakesMeta env fs' src dest ↔ MakesMeta env fs src dest := by
  obtain ⟨node, hnode⟩ := Option.isSome_iff_exists.1 hthere
  cases node with
  | dir => rw [MakesMeta, MakesMeta, hnode, h.dir _ hnode]
  | file c =>
    obtain ⟨c', hc'⟩ := h.file _ c hnode
    rw [MakesMeta, MakesMeta, hnode, hc']
  | special => rw [MakesMeta, MakesMeta, hnode, h.special _ hnode]

/-- A failed `create_dir_all` does not make the last component, a complete one does. -/
theorem createDirAll_makes {stop : Option (Nat × IoError)} {n : String}
    {r : Except IoError Unit} (hdest : fs.node dest = some .dir)
    (hnone : fs.node (dest ++ [n]) = none)
    (h : createDirAll stop fs (dest ++ [n]) = (fs', r)) :
    fs'.exists (dest ++ [n]) = true ↔ stop = none := by
  cases stop with
  | none =>
    rw [createDirAll, if_pos (canMake_append hdest (Or.inl hnone)), Prod.mk.injEq] at h
    refine iff_of_true ?_ rfl
    rw [← h.1, FileTree.exists, node_makeDirs_self]
    rfl
  | some stop =>
    obtain ⟨k, e⟩ := stop
    simp only [createDirAll, List.dropLast_concat, Prod.mk.injEq] at h
    refine iff_of_false ?_ (by simp)
    rw [← h.1, FileTree.exists]
    split
    · rw [node_makeDirs_below (List.take_prefix _ _) (List.cons_ne_nil n []), hnone]
      simp
    · rw [hnone]
      simp

/-- A copy of a file makes its destination unless it is refused before it opens it. -/
theorem copyFile_makes {outcome : CopyOutcome C} {file : List String} {n : String} {c : C}
    {r : Except IoError Unit} (hc : fs.content file = some c) (hdest : fs.node dest = some .dir)
    (hnone : fs.node (dest ++ [n]) = none)
    (h : copyFile empty outcome fs file dest n = (fs', r)) :
    fs'.exists (dest ++ [n]) = true ↔ ∀ e, outcome ≠ .refused e := by
  have hw : fs.Writable dest n := writable_of_none hdest hnone
  have hput : ∀ (fs₁ : FileTree String C) (x : C) (hx : fs₁.Writable dest n),
      (fs₁.put dest n x hx).exists (dest ++ [n]) = true := by
    intro fs₁ x hx
    rw [FileTree.exists, node_put_self]
    rfl
  cases outcome with
  | refused e =>
    simp only [copyFile, hc, Prod.mk.injEq] at h
    rw [← h.1, FileTree.exists, hnone]
    simp
  | stopped left e =>
    simp only [copyFile, hc, dif_pos hw, Prod.mk.injEq] at h
    rw [← h.1, hput]
    simp
  | done =>
    simp only [copyFile, hc, dif_pos hw, Prod.mk.injEq] at h
    rw [← h.1, hput]
    simp

variable {copyDir : FileTree String C → List String → List String →
    Option (FileTree String C × Except IoError Unit)} {r : Except IoError Unit}

/-- The iteration for the entry `meta.json`. -/
theorem copyEntry_meta (hrec : ∀ P, CallKeeps copyDir P) (hdest : fs.node dest = some .dir)
    (hnone : fs.node (metaPath dest) = none)
    (h : copyEntry empty env copyDir src dest fs "meta.json" = some (fs', r)) :
    fs'.exists (metaPath dest) = true ↔ MakesMeta env fs src dest := by
  have habsent : fs.exists (metaPath dest) = false := by
    rw [FileTree.exists, hnone]
    rfl
  have hpath : ∀ dir, dir ++ ["meta.json"] = metaPath dir := fun _ => rfl
  simp only [copyEntry, hpath] at h
  rw [MakesMeta]
  cases hentry : env.entry (metaPath src) with
  | some e =>
    simp only [hentry, Option.some.injEq, Prod.mk.injEq] at h
    rw [← h.1, habsent]
    simp
  | none =>
    simp only [hentry] at h
    rcases hnode : fs.node (metaPath src) with - | (- | c | -)
    · simp only [hnode, Option.some.injEq, Prod.mk.injEq] at h
      rw [← h.1, habsent]
      simp
    · simp only [hnode] at h
      generalize hmk : createDirAll (env.createDir (metaPath dest)) fs (metaPath dest) = o at h
      obtain ⟨mid, mres⟩ := o
      have hmakes : mid.exists (metaPath dest) = true ↔ env.createDir (metaPath dest) = none :=
        createDirAll_makes hdest hnone hmk
      cases mres with
      | error e =>
        simp only [Option.some.injEq, Prod.mk.injEq] at h
        rw [← h.1]
        simpa using hmakes
      | ok u =>
        have hstop : env.createDir (metaPath dest) = none := by
          cases hcreate : env.createDir (metaPath dest) with
          | none => rfl
          | some stop => simp [hcreate, createDirAll] at hmk
        have hmade : mid.exists (metaPath dest) = true := hmakes.2 hstop
        have hkept : Extends mid fs' := hrec _ _ _ _ _ _ (keeps_extends mid _) h (Extends.refl mid)
        exact iff_of_true (hkept.exists hmade) ⟨rfl, hstop⟩
    · simp only [hnode, Option.some.injEq] at h
      have hmakes : fs'.exists (metaPath dest) = true ↔ ∀ e, env.copy (metaPath src) ≠ .refused e :=
        copyFile_makes (content_eq_some_iff.2 hnode) hdest hnone h
      rw [hmakes]
      simp
    · simp only [hnode, Option.some.injEq, Prod.mk.injEq] at h
      rw [← h.1, habsent]
      simp

/-- The entries other than `meta.json` do not make it. -/
theorem copyEntry_other (hrec : ∀ P, CallKeeps copyDir P) {name : String}
    (hname : name ≠ "meta.json") (hnone : fs.node (metaPath dest) = none)
    (h : copyEntry empty env copyDir src dest fs name = some (fs', r)) :
    fs'.node (metaPath dest) = none :=
  copyEntry_keeps (hrec _) (keeps_node (apart_of_ne hname) none) h hnone

/-- The loop makes `meta.json` exactly when it gets to that entry and the copy of it does. -/
theorem copyEntries_meta (hrec : ∀ P, CallKeeps copyDir P) {names : List String}
    (hthere : fs.exists (metaPath src) = true) (hdest : fs.node dest = some .dir)
    (hnone : fs.node (metaPath dest) = none)
    (h : copyEntries empty env copyDir src dest fs names = some (fs', r)) :
    fs'.exists (metaPath dest) = true ↔ "meta.json" ∈ names ∧
      (∃ mid, copyEntries empty env copyDir src dest fs (beforeMeta names) = some (mid, .ok ())) ∧
      MakesMeta env fs src dest := by
  induction names generalizing fs with
  | nil =>
    simp only [copyEntries, Option.some.injEq, Prod.mk.injEq] at h
    rw [← h.1, FileTree.exists, hnone]
    simp
  | cons name names ih =>
    rw [copyEntries] at h
    generalize hentry : copyEntry empty env copyDir src dest fs name = o at h
    rcases o with - | ⟨mid, mres⟩
    · simp at h
    have hext : Extends fs mid :=
      copyEntry_keeps (hrec _) (keeps_extends fs _) hentry (Extends.refl fs)
    by_cases hname : name = "meta.json"
    · subst hname
      have hmakes := copyEntry_meta hrec hdest hnone hentry
      have hbefore : beforeMeta ("meta.json" :: names) = [] := by simp [beforeMeta]
      suffices hiff : fs'.exists (metaPath dest) = true ↔ MakesMeta env fs src dest by
        rw [hiff, hbefore, copyEntries]
        simp
      cases mres with
      | error e =>
        simp only [Option.some.injEq, Prod.mk.injEq] at h
        rw [← h.1]
        exact hmakes
      | ok u =>
        by_cases hm : MakesMeta env fs src dest
        · have hrest : Extends mid fs' :=
            copyEntries_keeps (hrec _) (fun n _ => keeps_extends mid _) h (Extends.refl mid)
          exact iff_of_true (hrest.exists (hmakes.2 hm)) hm
        · -- the entry was skipped, and so is every later one of this name
          have hmid : mid.node (metaPath dest) = none := by
            have hnot := mt hmakes.1 hm
            simpa [FileTree.exists] using hnot
          refine iff_of_false ?_ hm
          rw [ih (hext.exists hthere) (hext.dir _ hdest) hmid h, MakesMeta.congr hext hthere]
          exact fun hall => hm hall.2.2
    · have hmid := copyEntry_other hrec hname hnone hentry
      have hbefore : beforeMeta (name :: names) = name :: beforeMeta names := by
        simp [beforeMeta, hname]
      have hmem : "meta.json" ∈ name :: names ↔ "meta.json" ∈ names := by
        simp [Ne.symm hname]
      rw [hbefore, hmem, copyEntries, hentry]
      cases mres with
      | error e =>
        simp only [Option.some.injEq, Prod.mk.injEq] at h
        rw [← h.1, FileTree.exists, hmid]
        simp
      | ok u =>
        rw [ih (hext.exists hthere) (hext.dir _ hdest) hmid h, MakesMeta.congr hext hthere]

end Loop

/-! ## The restore -/

/-- A restore makes the entry `meta.json` of its destination: the destination is made, the snapshot
is enumerated, the entries before `meta.json` are copied, and the copy of `meta.json` is not refused
before it opens the file. -/
structure MakesMarker (K : FileFormat E C) (copy : FsEnv C) (fuel : Nat) (fs : FileTree String C)
    (src dest : List String) : Prop where
  readDir : copy.readDir src = none
  listed : "meta.json" ∈ copy.order src
  reached : ∃ fs₁ fs₂, createDirAll (copy.createDir dest) fs dest = (fs₁, .ok ()) ∧
    copyEntries K.empty copy (copyDirContents K.empty copy (fuel - 1)) src dest fs₁
      (beforeMeta (copy.order src)) = some (fs₂, .ok ())
  made : MakesMeta copy fs src dest

section Restore

variable {K : FileFormat E C} {J : SerdeJson} {copy : FsEnv C} {env : OpenEnv E} {fuel : Nat}
  {fs fs' : FileTree String C} {srcPath destPath : PathBuf} {files' : Dir E}
  {r : Except TenantError (Tenant E)}

/-- How a restore that passes the two checks ends: the destination cannot be made, or the copy
starts. Only `open` leaves other files than the copy, and it runs after `meta.json` is read. -/
theorem restoreFrom_cases (hfree : populated fs destPath.components = false)
    (hsnap : fs.exists (metaPath srcPath.components) = true)
    (h : restoreFrom K J copy env fuel fs srcPath destPath = some (fs', files', r)) :
    ((∃ e, createDirAll (copy.createDir destPath.components) fs destPath.components =
        (fs', .error e)) ∨
      ∃ fs₁ res, createDirAll (copy.createDir destPath.components) fs destPath.components =
          (fs₁, .ok ()) ∧
        copyDirContents K.empty copy fuel fs₁ srcPath.components destPath.components =
          some (fs', res)) ∧
      (populated fs' destPath.components = false →
        files' = dirAt K fs' destPath.components ∧ ∃ e, r = .error e) := by
  simp only [restoreFrom, hfree, hsnap, Bool.false_eq_true, Bool.true_eq_false, if_false] at h
  generalize createDirAll (copy.createDir destPath.components) fs destPath.components = mk at h ⊢
  obtain ⟨fs₁, mres⟩ := mk
  cases mres with
  | error e =>
    simp only [Option.some.injEq, Prod.mk.injEq] at h
    obtain ⟨rfl, rfl, rfl⟩ := h
    exact ⟨Or.inl ⟨e, rfl⟩, fun _ => ⟨rfl, _, rfl⟩⟩
  | ok u =>
    dsimp only at h
    generalize hcopy : copyDirContents K.empty copy fuel fs₁ srcPath.components
      destPath.components = o at h
    rcases o with - | ⟨fs₂, cres⟩
    · simp at h
    cases cres with
    | error e =>
      simp only [Option.some.injEq, Prod.mk.injEq] at h
      obtain ⟨rfl, rfl, rfl⟩ := h
      exact ⟨Or.inr ⟨fs₁, _, rfl, hcopy⟩, fun _ => ⟨rfl, _, rfl⟩⟩
    | ok u =>
      dsimp only at h
      generalize hread : readSidecar K J env.readMeta fs₂ (metaPath destPath.components) = rd at h
      cases rd with
      | error e =>
        simp only [Option.some.injEq, Prod.mk.injEq] at h
        obtain ⟨rfl, rfl, rfl⟩ := h
        exact ⟨Or.inr ⟨fs₁, _, rfl, hcopy⟩, fun _ => ⟨rfl, _, rfl⟩⟩
      | ok sidecar =>
        simp only [Option.some.injEq, Prod.mk.injEq] at h
        obtain ⟨rfl, -⟩ := h
        refine ⟨Or.inr ⟨fs₁, _, rfl, hcopy⟩, ?_⟩
        intro hgone
        have hnone : fs₂.node (metaPath destPath.components) = none := by
          simpa [populated, FileTree.exists] using hgone
        rw [readSidecar, hnone] at hread
        obtain ⟨bytes, hbytes, -⟩ := MetadataSidecar.readFromPath_ok hread
        simp at hbytes

/-- A restore leaves a populated destination exactly when it makes the entry `meta.json`. -/
theorem populated_iff (hfree : populated fs destPath.components = false)
    (hsnap : fs.exists (metaPath srcPath.components) = true)
    (h : restoreFrom K J copy env fuel fs srcPath destPath = some (fs', files', r)) :
    populated fs' destPath.components = true ↔
      MakesMarker K copy fuel fs srcPath.components destPath.components := by
  have hnone : fs.node (metaPath destPath.components) = none := by
    simpa [populated, FileTree.exists] using hfree
  have hbelow : (["meta.json"] : List String) ≠ [] := by simp
  rcases (restoreFrom_cases hfree hsnap h).1 with ⟨e, hmk⟩ | ⟨fs₁, res, hmk, hcopy⟩
  · apply iff_of_false
    · have hnone' : fs'.node (metaPath destPath.components) = none :=
        (createDirAll_below hmk hbelow).trans hnone
      rw [populated, FileTree.exists, hnone']
      simp
    · rintro ⟨-, -, ⟨fs₁, fs₂, hmk', -⟩, -⟩
      rw [hmk] at hmk'
      simp at hmk'
  · have hext := createDirAll_extends hmk
    have hnone₁ : fs₁.node (metaPath destPath.components) = none :=
      (createDirAll_below hmk hbelow).trans hnone
    have hdest₁ : fs₁.node destPath.components = some .dir := by
      rw [(createDirAll_ok hmk).2.2]
      exact node_makeDirs_self
    have hsnap₁ := hext.exists hsnap
    have hsrc₁ : fs₁.node srcPath.components = some .dir := fs₁.parent _ "meta.json" hsnap₁
    cases fuel with
    | zero => simp [copyDirContents] at hcopy
    | succ fuel =>
      rw [copyDirContents] at hcopy
      cases hread : copy.readDir srcPath.components with
      | some e =>
        simp only [hread, Option.some.injEq, Prod.mk.injEq] at hcopy
        apply iff_of_false
        · rw [← hcopy.1, populated, FileTree.exists, hnone₁]
          simp
        · intro hmarker
          rw [hmarker.readDir] at hread
          simp at hread
      | none =>
        rw [hread, hsrc₁] at hcopy
        have hrec : ∀ P, CallKeeps (copyDirContents K.empty copy fuel) P :=
          fun P => callKeeps_copyDirContents fuel P
        rw [populated, copyEntries_meta hrec hsnap₁ hdest₁ hnone₁ hcopy, MakesMeta.congr hext hsnap]
        constructor
        · rintro ⟨hlisted, ⟨mid, hmid⟩, hmade⟩
          exact ⟨hread, hlisted, ⟨fs₁, mid, hmk, hmid⟩, hmade⟩
        · rintro ⟨-, hlisted, ⟨fs₂, mid, hmk', hmid⟩, hmade⟩
          obtain rfl : fs₁ = fs₂ := by simpa [hmk] using hmk'
          exact ⟨hlisted, ⟨mid, hmid⟩, hmade⟩

/-- After a restore that failed, the next one is not refused and no read-only open presents what was
copied exactly when the restore did not make the entry `meta.json`. -/
theorem retry_iff {e : TenantError} (hfree : populated fs destPath.components = false)
    (hsnap : fs.exists (metaPath srcPath.components) = true)
    (h : restoreFrom K J copy env fuel fs srcPath destPath = some (fs', files', .error e)) :
    (populated fs' destPath.components = false ∧ ∀ (env₁ : OpenEnv E) files₁ t,
        Tenant.openReadonlyAt J env₁ destPath files' ≠ (files₁, .ok t)) ↔
      ¬ MakesMarker K copy fuel fs srcPath.components destPath.components := by
  rw [← populated_iff hfree hsnap h, Bool.not_eq_true]
  constructor
  · exact fun hall => hall.1
  · intro hgone
    refine ⟨hgone, ?_⟩
    intro env₁ files₁ t hopen
    -- without a sidecar there is no tenant to open
    have hmeta : files'.metaJson = none := by
      have hnone : fs'.node (metaPath destPath.components) = none := by
        simpa [populated, FileTree.exists] using hgone
      rw [((restoreFrom_cases hfree hsnap h).2 hgone).1, dirAt, content, hnone]
      rfl
    simp [Tenant.openReadonlyAt, hmeta] at hopen

end Restore

section Home

open Reference

/-- The destination cannot be made: the next restore is not refused. -/
theorem retry_iff_example : ∃ fs' files' e,
    restoreFrom plain json { (calm homeOrder : FsEnv (Bytes ⊕ Log)) with
        createDir := fun _ => some (0, failure) } quiet 2 homeTree home restoredHome =
      some (fs', files', .error e) ∧
    populated fs' restoredHome.components = false ∧
    ∀ (env₁ : OpenEnv engine) files₁ t,
      Tenant.openReadonlyAt json env₁ restoredHome files' ≠ (files₁, .ok t) := by
  have hfree : populated homeTree restoredHome.components = false := by decide +kernel
  have hsnap : homeTree.exists (metaPath home.components) = true := by decide +kernel
  have hrun : ∃ fs' files' e,
      restoreFrom plain json { (calm homeOrder : FsEnv (Bytes ⊕ Log)) with
          createDir := fun _ => some (0, failure) } quiet 2 homeTree home restoredHome =
        some (fs', files', .error e) := by
    simp only [restoreFrom, hfree, hsnap, createDirAll]
    exact ⟨_, _, _, rfl⟩
  obtain ⟨fs', files', e, hrun⟩ := hrun
  refine ⟨fs', files', e, hrun, (retry_iff hfree hsnap hrun).2 ?_⟩
  rintro ⟨-, -, ⟨fs₁, fs₂, hmk, -⟩, -⟩
  simp [createDirAll] at hmk

/-- The directory is enumerated with `meta.json` first, and the copy of `CURRENT` fails. -/
def fullDisk : FsEnv (Bytes ⊕ Log) where
  createDir _ := none
  readDir _ := none
  order dir :=
    if dir = home.components then ["meta.json", "tier.kind", "delta.log", "CURRENT"] else []
  entry _ := none
  copy p := if p = home.components ++ ["CURRENT"] then .refused failure else .done

/-- The restore fails, a second one is refused although nothing fails any more, and a read-only open
presents the part that was copied. -/
theorem retry_refused : ∃ fs' files' files₁ t,
    restoreFrom plain json fullDisk quiet 2 homeTree home restoredHome =
      some (fs', files', .error (.io failure)) ∧
    populated fs' restoredHome.components = true ∧
    restoreFrom plain json (calm homeOrder) quiet 2 fs' home restoredHome =
      some (fs', dirAt plain fs' restoredHome.components,
        .error (.io ⟨.alreadyExists, "restore destination already populated: /restored"⟩)) ∧
    Tenant.openReadonlyAt json quiet restoredHome files' = (files₁, .ok t) := by
  have hdisplay : "restore destination already populated: " ++ restoredHome.display =
      "restore destination already populated: /restored" := by decide +kernel
  have hrun : (restoreFrom plain json fullDisk quiet 2 homeTree home restoredHome).any (fun r =>
      populated r.1 restoredHome.components &&
        (match r.2.2 with
          | .error e => decide (e = .io failure)
          | .ok _ => false) &&
        (Tenant.openReadonlyAt json quiet restoredHome r.2.1).2.isOk) = true := by
    decide +kernel
  obtain ⟨⟨fs', files', res⟩, hrun, hr⟩ := (Option.any_eq_true ..).1 hrun
  simp only [Bool.and_eq_true] at hr
  obtain ⟨⟨hpopulated, hres⟩, hopen⟩ := hr
  cases res with
  | ok t => simp at hres
  | error e =>
    obtain rfl := of_decide_eq_true hres
    generalize hview : Tenant.openReadonlyAt json quiet restoredHome files' = view at hopen
    obtain ⟨files₁, vres⟩ := view
    cases vres with
    | error e => simp [Except.isOk, Except.toBool] at hopen
    | ok t =>
      refine ⟨fs', files', files₁, t, hrun, hpopulated, ?_, hview⟩
      simp only [restoreFrom, hpopulated, if_true, hdisplay]

end Home

end SkegRigging.Fs
