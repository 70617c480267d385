import Mathlib.Data.Sum.Basic
import SkegRigging.Adapter.TenantSpec

/-!
# Copying a directory, file by file

A directory is what its files hold (`Dir.content`). A copy that ends without an error leaves every
file it was given with the content of the source and every other file as it was
(`copyDirContents_ok`); into a directory without files, with every file listed, it makes the same
directory (`copyDirContents_fresh`).
-/

set_option autoImplicit false

namespace SkegRigging

open DiskVamanaIndex

namespace Tenant

variable {F S : Type} {E : DiskVamanaIndex F S}

/-- What a file of the directory holds. -/
def content (files : Dir E) : DirEntry → Option (Bytes ⊕ E.Content)
  | .metaJson => files.metaJson.map .inl
  | .engine name => (files.engine name).map .inr

theorem content_metaJson_inj {files files' : Dir E}
    (h : content files .metaJson = content files' .metaJson) : files.metaJson = files'.metaJson :=
  Option.map_injective Sum.inl_injective h

theorem content_engine_inj {files files' : Dir E} {name : String}
    (h : content files (.engine name) = content files' (.engine name)) :
    files.engine name = files'.engine name :=
  Option.map_injective Sum.inr_injective h

/-- Directories that hold the same are the same. -/
theorem dir_ext {files files' : Dir E} (h : ∀ e, content files e = content files' e) :
    files = files' := by
  obtain ⟨metaJson, engine⟩ := files
  obtain ⟨metaJson', engine'⟩ := files'
  -- `content` tags the two kinds of file, so equality of contents separates them
  have hmeta : metaJson = metaJson' := content_metaJson_inj (h .metaJson)
  have hengine : engine = engine' := funext fun name => content_engine_inj (h (.engine name))
  rw [hmeta, hengine]

theorem isIn_iff (files : Dir E) (e : DirEntry) : e.isIn files = (content files e).isSome := by
  cases e with
  | metaJson => simp [DirEntry.isIn, content]
  | engine name => simp [DirEntry.isIn, content]

/-- The enumeration lists exactly the files of the directory. -/
def Lists (order : List DirEntry) (files : Dir E) : Prop := ∀ e, e ∈ order ↔ e.isIn files = true

theorem copyFile_some {src dest dest' : Dir E} {entry : DirEntry}
    (h : copyFile src dest entry = some dest') (e : DirEntry) :
    content dest' e = if e = entry then content src e else content dest e := by
  cases entry with
  | metaJson =>
    obtain ⟨bytes, hsrc, rfl⟩ := Option.map_eq_some_iff.1 h
    cases e with
    | metaJson => simp [content, hsrc]
    | engine name => simp [content]
  | engine name =>
    obtain ⟨c, hsrc, rfl⟩ := Option.map_eq_some_iff.1 h
    cases e with
    | metaJson => simp [content]
    | engine name' =>
      by_cases hname : name' = name
      · subst hname
        simp [content, hsrc]
      · simp [content, hname]

/-- What every single copy preserves holds wherever the loop stops. -/
theorem copyDirContents_invariant {src : Dir E} {P : Dir E → Prop}
    (hstep : ∀ {mid mid' entry}, P mid → copyFile src mid entry = some mid' → P mid')
    (fail : Option (Nat × IoError)) (order : List DirEntry) {dest : Dir E} (hdest : P dest) :
    P (copyDirContents fail src order dest).1 := by
  induction order generalizing dest fail with
  | nil => exact hdest
  | cons entry entries ih =>
    unfold copyDirContents
    split
    · exact hdest
    · split
      · exact hdest
      · rename_i mid hmid
        exact ih _ (hstep hdest hmid)
    · split
      · exact hdest
      · rename_i mid hmid
        exact ih _ (hstep hdest hmid)

/-- A copy without an error copies every listed file and touches no other. -/
theorem copyDirContents_ok {fail : Option (Nat × IoError)} {src dest dest' : Dir E}
    {order : List DirEntry} (h : copyDirContents fail src order dest = (dest', .ok ()))
    (e : DirEntry) :
    content dest' e = if e ∈ order then content src e else content dest e := by
  induction order generalizing dest fail with
  | nil =>
    simp only [copyDirContents, Prod.mk.injEq, and_true] at h
    simp [h]
  | cons entry entries ih =>
    -- whatever the failure budget, the first file was copied and the rest of the loop succeeded
    have hstep : ∃ mid fail', copyFile src dest entry = some mid ∧
        copyDirContents fail' src entries mid = (dest', .ok ()) := by
      unfold copyDirContents at h
      split at h
      · simp at h
      · split at h
        · simp at h
        · rename_i mid hmid
          exact ⟨mid, _, hmid, h⟩
      · split at h
        · simp at h
        · rename_i mid hmid
          exact ⟨mid, _, hmid, h⟩
    obtain ⟨mid, fail', hcopy, hrest⟩ := hstep
    rw [ih hrest, copyFile_some hcopy]
    by_cases he : e = entry
    · simp [he]
    · simp [he]

/-- A complete copy into a directory without files. -/
theorem copyDirContents_fresh {fail : Option (Nat × IoError)} {src dest' : Dir E}
    {order : List DirEntry} (horder : Lists order src)
    (h : copyDirContents fail src order Dir.fresh = (dest', .ok ())) : dest' = src := by
  apply dir_ext
  intro e
  rw [copyDirContents_ok h]
  split
  · rfl
  · rename_i hout
    rw [horder e, isIn_iff] at hout
    have hsrc : content src e = none := by simpa using hout
    rw [hsrc]
    cases e <;> rfl

/-- A snapshot that succeeds copied the directory its flush left. -/
theorem snapshot_ok {J : SerdeJson} {o : WriteOutcome} {env : CopyEnv}
    {files dest files' dest' : Dir E} {t : Tenant E}
    (h : t.snapshot J o env files dest = (files', dest', .ok ())) :
    t.flush J o files = (files', .ok ()) ∧
      copyDirContents env.fail files' env.order dest = (dest', .ok ()) := by
  unfold snapshot at h
  cases hmk : env.createDirAll with
  | some e =>
    rw [hmk] at h
    simp at h
  | none =>
    rw [hmk] at h
    dsimp only at h
    generalize hfl : t.flush J o files = fl at h
    obtain ⟨files₁, fres⟩ := fl
    cases fres with
    | error e => simp at h
    | ok u =>
      dsimp only at h
      generalize hcp : copyDirContents env.fail files₁ env.order dest = cp at h
      obtain ⟨dest₁, cres⟩ := cp
      cases cres with
      | error e => simp at h
      | ok u =>
        simp only [Prod.mk.injEq, and_true] at h
        obtain ⟨rfl, rfl⟩ := h
        exact ⟨rfl, hcp⟩

/-- The sidecar on disk; none when the file is missing or does not parse. -/
def diskSidecar (J : SerdeJson) (files : Dir E) : Option MetadataSidecar :=
  files.metaJson.bind fun bytes => (J.fromSlice bytes).toOption

theorem diskSidecar_of_parse {J : SerdeJson} {files : Dir E} {bytes : Bytes} {w : MetadataSidecar}
    (hmeta : files.metaJson = some bytes) (hparse : J.fromSlice bytes = .ok w) :
    diskSidecar J files = some w := by
  rw [diskSidecar, hmeta, Option.bind_some, hparse]
  rfl

/-- The sidecar on disk is what `meta.json` parses to. -/
theorem diskSidecar_eq_some {J : SerdeJson} {files : Dir E} {w : MetadataSidecar}
    (h : diskSidecar J files = some w) :
    ∃ bytes, files.metaJson = some bytes ∧ J.fromSlice bytes = .ok w := by
  obtain ⟨bytes, hmeta, hparse⟩ := Option.bind_eq_some_iff.1 h
  refine ⟨bytes, hmeta, ?_⟩
  cases hp : J.fromSlice bytes with
  | error e => simp [hp, Except.toOption] at hparse
  | ok w' =>
    rw [hp] at hparse
    rw [Option.some.inj hparse]

/-- After a write of the sidecar that was cut short there is no sidecar on disk. -/
theorem diskSidecar_torn {J : SerdeJson} (hJ : J.Laws) {files : Dir E} {w : MetadataSidecar}
    {n : Nat} (hn : n < (J.toVec w).length) (hmeta : files.metaJson = some ((J.toVec w).take n)) :
    diskSidecar J files = none := by
  obtain ⟨e, he⟩ := hJ.truncated w n hn
  rw [diskSidecar, hmeta, Option.bind_some, he]
  rfl

/-- A restore that succeeds found no sidecar in the destination, copied one, and opened the copy
with the id and the dimension in it. -/
theorem restoreFrom_copied {J : SerdeJson} {copy : CopyEnv} {env : OpenEnv E}
    {srcPath destPath : PathBuf} {src dest dest' : Dir E} {t : Tenant E}
    (h : restoreFrom J copy env srcPath destPath src dest = (dest', .ok t)) :
    dest.metaJson = none ∧ ∃ mid bytes w,
      copyDirContents copy.fail src copy.order dest = (mid, .ok ()) ∧
      mid.metaJson = some bytes ∧ J.fromSlice bytes = .ok w ∧
      «open» J env destPath mid w.tenantId w.embeddingDim = (dest', .ok t) := by
  -- the exits are those of the source, in its order; only the last one returns a handle
  unfold restoreFrom at h
  split at h
  · simp at h
  · rename_i hguard
    refine ⟨by simpa using hguard, ?_⟩
    split at h
    · simp at h
    · cases hmk : copy.createDirAll with
      | some e =>
        rw [hmk] at h
        simp at h
      | none =>
        rw [hmk] at h
        dsimp only at h
        generalize copyDirContents copy.fail src copy.order dest = cp at h ⊢
        obtain ⟨mid, cres⟩ := cp
        cases cres with
        | error e => simp at h
        | ok u =>
          dsimp only at h
          generalize hread : MetadataSidecar.readFromPath J env.readMeta mid.metaJson = rd at h
          cases rd with
          | error e => simp at h
          | ok w =>
            obtain ⟨bytes, hbytes, hparse⟩ := MetadataSidecar.readFromPath_ok hread
            exact ⟨mid, bytes, w, rfl, hbytes, hparse, h⟩

/-- A restore that succeeds into a directory without files opens a copy of the snapshot: its index
serves the vectors the snapshot holds, and its sidecar is the one in the snapshot. -/
theorem restoreFrom_ok (M : E.Model) {J : SerdeJson} {copy : CopyEnv} {env : OpenEnv E}
    {srcPath destPath : PathBuf} {src dest' : Dir E} {t : Tenant E} (horder : Lists copy.order src)
    (h : restoreFrom J copy env srcPath destPath src Dir.fresh = (dest', .ok t)) :
    M.vectors t.inner.index = M.stored src.engine ∧
      diskSidecar J src = some t.inner.sidecar := by
  obtain ⟨-, mid, bytes, w, hcopy, hbytes, hparse, hopen⟩ := restoreFrom_copied h
  -- the copy is the snapshot itself
  have hmid : mid = src := copyDirContents_fresh horder hcopy
  subst hmid
  have hopened := open_ok M hopen
  exact ⟨hopened.vectors, diskSidecar_of_parse hbytes (hopened.loaded bytes hbytes).1⟩

end Tenant

end SkegRigging
