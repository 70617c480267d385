import SkegRigging.Adapter.Copy
import SkegRigging.Library.Runs
import SkegRigging.Reference.Engine
import SkegRigging.Reference.Json

/-!
# The identity of a tenant

A family is one tenant directory with its snapshots and the directories restored from them, and
every handle opened on any of them. The id of a tenant is kept in each sidecar and in each handle.
`open_readonly_at` and `restore_from` take the handle's id from the sidecar. `open` checks the
dimension it was asked for against the sidecar, but not the id: over an existing `meta.json` its
handle carries the requested id (`identified_renamed`). The ids of a family agree exactly as long as
every `open` over a readable sidecar asks for the id recorded there, or fails for another reason
(`eachState_identified_iff`).

Nothing is asked of the engine here.
-/

set_option autoImplicit false

namespace SkegRigging

open DiskVamanaIndex

variable {F S : Type}

/-- The directories of a family, the open handles with the position of their directory, and the id
that each handle reported when it was opened. -/
structure Family (E : DiskVamanaIndex F S) where
  dirs : List (Dir E)
  handles : List (Nat × Tenant E)
  reported : List TenantId

/-- What happens during a snapshot: `read_dir` lists `meta.json`, which is in the directory from
the flush on. -/
structure SnapshotEnv extends Tenant.CopyEnv where
  listed : .metaJson ∈ order

namespace Family

variable {E : DiskVamanaIndex F S}

/-- An operation of a family. Directories and handles are named by position. -/
inductive Op (E : DiskVamanaIndex F S)
  | open (i : Nat) (env : OpenEnv E) (tenantId : TenantId) (embeddingDim : UInt32)
  | createNew (i : Nat) (env : OpenEnv E) (tenantId : TenantId) (embeddingDim : UInt32)
  | openReadonly (i : Nat) (env : OpenEnv E)
  | insert (k : Nat) (env : E.Env) (r : Tenant.Record F)
  | delete (k : Nat) (id : RecordId)
  | flush (k : Nat) (o : WriteOutcome)
  | consolidate (k : Nat) (env : E.Env)
  | snapshot (k : Nat) (o : WriteOutcome) (env : SnapshotEnv) (dest : Dir E)
  | snapshotOver (k : Nat) (o : WriteOutcome) (env : SnapshotEnv) (j : Nat)
    (emptied : String → E.Content)
  | restoreFrom (i : Nat) (copy : Tenant.CopyEnv) (env : OpenEnv E) (dest : Dir E)
  | restoreOver (i : Nat) (copy : Tenant.CopyEnv) (env : OpenEnv E) (j : Nat)
  | drop (k : Nat)

/-- One directory, before any handle. -/
def init (files : Dir E) : Family E := { dirs := [files], handles := [], reported := [] }

/-! ## The step function -/

section Step

variable (J : SerdeJson) (path : Nat → PathBuf)

/-- After an opening on directory `i`. -/
def opened (s : Family E) (i : Nat) : Dir E × Except TenantError (Tenant E) → Family E
  | (files, .ok t) =>
    { dirs := s.dirs.set i files
      handles := s.handles ++ [(i, t)]
      reported := s.reported ++ [t.tenantId] }
  | (files, .error _) => { s with dirs := s.dirs.set i files }

/-- After a call of handle `k`, open on directory `i`. -/
def called (s : Family E) (k i : Nat) (files : Dir E) (t : Tenant E) : Family E :=
  { s with dirs := s.dirs.set i files, handles := s.handles.set k (i, t) }

/-- Handle `k` with its directory. -/
def handleAt (s : Family E) (k : Nat) : Option (Nat × Tenant E × Dir E) :=
  match s.handles[k]? with
  | none => none
  | some (i, t) => s.dirs[i]?.map fun files => (i, t, files)

/-- The copy of a file onto itself: `std::fs::copy` truncates the file before it reads it. What an
empty file is to the engine, `emptied` says. -/
def emptyFile (emptied : String → E.Content) (files : Dir E) : Tenant.DirEntry → Dir E
  | .metaJson => { files with metaJson := some [] }
  | .engine name =>
    { files with engine := Function.update files.engine name (some (emptied name)) }

/-- The files that a copy gets to. -/
def reached (env : Tenant.CopyEnv) : List Tenant.DirEntry :=
  match env.fail with
  | none => env.order
  | some (n, _) => env.order.take n

/-- A snapshot of handle `t` into its own directory. -/
def snapshotOntoItself (o : WriteOutcome) (env : Tenant.CopyEnv) (emptied : String → E.Content)
    (files : Dir E) (t : Tenant E) : Dir E :=
  match env.createDirAll with
  | some _ => files
  | none =>
    match t.flush J o files with
    | (files, .error _) => files
    | (files, .ok ()) => (reached env).foldl (emptyFile emptied) files

/-- One operation. A position that names nothing leaves the family as it is. `snapshot` and
`restoreFrom` write to a directory outside the family, which joins it when the call succeeds;
`snapshotOver` and `restoreOver` write to directory `j` of the family. -/
def step (s : Family E) : Op E → Family E
  | .open i env tenantId embeddingDim =>
    match s.dirs[i]? with
    | none => s
    | some files => s.opened i (Tenant.open J env (path i) files tenantId embeddingDim)
  | .createNew i env tenantId embeddingDim =>
    match s.dirs[i]? with
    | none => s
    | some files => s.opened i (Tenant.createNew J env (path i) files tenantId embeddingDim)
  | .openReadonly i env =>
    match s.dirs[i]? with
    | none => s
    | some files => s.opened i (Tenant.openReadonlyAt J env (path i) files)
  | .insert k env r =>
    match s.handleAt k with
    | none => s
    | some (i, t, files) =>
      let (files, t, _) := t.insert env files r
      s.called k i files t
  | .delete k id =>
    match s.handleAt k with
    | none => s
    | some (i, t, files) => s.called k i files (t.delete id).1
  | .flush k o =>
    match s.handleAt k with
    | none => s
    | some (i, t, files) => s.called k i (t.flush J o files).1 t
  | .consolidate k env =>
    match s.handleAt k with
    | none => s
    | some (i, t, files) =>
      let (files, t, _) := t.consolidate env files
      s.called k i files t
  | .snapshot k o env dest =>
    match s.handleAt k with
    | none => s
    | some (i, t, files) =>
      match t.snapshot J o env.toCopyEnv files dest with
      | (files, dest, .ok ()) =>
        let s := s.called k i files t
        { s with dirs := s.dirs ++ [dest] }
      | (files, _, .error _) => s.called k i files t
  | .snapshotOver k o env j emptied =>
    match s.handleAt k, s.dirs[j]? with
    | some (i, t, files), some dest =>
      if i = j then s.called k i (snapshotOntoItself J o env.toCopyEnv emptied files t) t
      else
        match t.snapshot J o env.toCopyEnv files dest with
        | (files, dest, _) =>
          let s := s.called k i files t
          { s with dirs := s.dirs.set j dest }
    | _, _ => s
  | .restoreOver i copy env j =>
    match s.dirs[i]?, s.dirs[j]? with
    | some files, some dest =>
      s.opened j (Tenant.restoreFrom J copy env (path i) (path j) files dest)
    | _, _ => s
  | .restoreFrom i copy env dest =>
    match s.dirs[i]? with
    | none => s
    | some files =>
      match Tenant.restoreFrom J copy env (path i) (path s.dirs.length) files dest with
      | (dest, .ok t) =>
        { dirs := s.dirs ++ [dest]
          handles := s.handles ++ [(s.dirs.length, t)]
          reported := s.reported ++ [t.tenantId] }
      | (_, .error _) => s
  | .drop k => { s with handles := s.handles.eraseIdx k }

end Step

/-! ## Agreement -/

section Agreement

variable (J : SerdeJson)

/-- Every handle reported `id`, and every sidecar records it, in a handle or on disk. -/
structure Agrees (id : TenantId) (s : Family E) : Prop where
  reported : ∀ i ∈ s.reported, i = id
  held : ∀ h ∈ s.handles, h.2.tenantId = id ∧ h.2.inner.sidecar.tenantId = id
  persisted : ∀ files ∈ s.dirs, ∀ w, Tenant.diskSidecar J files = some w → w.tenantId = id

/-- The family has one id. -/
def Identified (s : Family E) : Prop := ∃ id, Agrees J id s

/-- An open of a directory whose sidecar records another id than the one asked for is refused. -/
def Refuses (path : Nat → PathBuf) (s : Family E) : Op E → Prop
  | .open i env tenantId embeddingDim => ∀ files w, s.dirs[i]? = some files →
      Tenant.diskSidecar J files = some w → w.tenantId ≠ tenantId →
        ∃ e, (Tenant.open J env (path i) files tenantId embeddingDim).2 = .error e
  | .createNew i env tenantId embeddingDim => ∀ files w, s.dirs[i]? = some files →
      Tenant.diskSidecar J files = some w → w.tenantId ≠ tenantId →
        ∃ e, (Tenant.createNew J env (path i) files tenantId embeddingDim).2 = .error e
  | _ => True

/-- The open fails before it returns a handle: the directory or the sidecar cannot be reached, or
the dimension asked for is not that of the sidecar `w` or of the index. -/
def FailsAnyway (env : OpenEnv E) (files : Dir E) (w : MetadataSidecar) (embeddingDim : UInt32) :
    Prop :=
  env.createDirAll.isSome = true ∨ env.readMeta.isSome = true ∨ w.embeddingDim ≠ embeddingDim ∨
    ∀ engine idx, E.openIndex env.engine files.engine = (engine, .ok idx) →
      asU32 (E.dim idx) ≠ embeddingDim

/-- An `open` over a readable sidecar asks for the recorded id, or fails anyway. -/
def AsksRecordedId (s : Family E) : Op E → Prop
  | .open i env tenantId embeddingDim => ∀ files w, s.dirs[i]? = some files →
      Tenant.diskSidecar J files = some w → w.tenantId ≠ tenantId →
        FailsAnyway env files w embeddingDim
  | _ => True

end Agreement

/-! ## What the operations do to `meta.json` -/

section Sidecars

variable {J : SerdeJson} {env : OpenEnv E} {dir : PathBuf} {files files' : Dir E}
  {tenantId : TenantId} {embeddingDim : UInt32}

/-- Over a `meta.json` an open leaves the file alone, and its handle has the requested id and the
sidecar of the file. -/
theorem open_over {bytes : Bytes} (hmeta : files.metaJson = some bytes)
    {r : Except TenantError (Tenant E)}
    (h : Tenant.open J env dir files tenantId embeddingDim = (files', r)) :
    files'.metaJson = some bytes ∧
      ∀ t, r = .ok t → t.tenantId = tenantId ∧ J.fromSlice bytes = .ok t.inner.sidecar := by
  have hnone : ∀ {P : Prop}, files.metaJson = none → P := by
    intro P h
    rw [hmeta] at h
    simp at h
  cases Tenant.open_ends h with
  | stopped e => exact ⟨hmeta, fun t ht => by simp at ht⟩
  | unopened e hopen => exact ⟨hmeta, fun t ht => by simp at ht⟩
  | uncreated hmiss => exact hnone hmiss
  | reopened hold hparse hw hopen hdim =>
    refine ⟨hmeta, ?_⟩
    intro t ht
    rw [hmeta, Option.some.injEq] at hold
    rw [← Except.ok.inj ht, hold]
    exact ⟨rfl, hparse⟩
  | adopted hmiss => exact hnone hmiss
  | created hmiss => exact hnone hmiss

/-- How an open without a `meta.json` ends: with a handle over a new empty sidecar, or with an error
before the write of that sidecar was complete. -/
def StartsEmpty (J : SerdeJson) (tenantId : TenantId) (embeddingDim : UInt32) (files' : Dir E)
    (r : Except TenantError (Tenant E)) : Prop :=
  (∃ t, r = .ok t ∧ t.tenantId = tenantId ∧ t.inner.sidecar = .empty tenantId embeddingDim ∧
      files'.metaJson = some (J.toVec t.inner.sidecar)) ∨
    (∃ e, r = .error e) ∧ (files'.metaJson = none ∨
      ∃ n < (J.toVec (.empty tenantId embeddingDim)).length,
        files'.metaJson = some ((J.toVec (.empty tenantId embeddingDim)).take n))

theorem startEmpty_startsEmpty {mid : Dir E} {idx : E.Handle} (hmid : mid.metaJson = none)
    {r : Except TenantError (Tenant E)}
    (h : Tenant.startEmpty J env dir tenantId embeddingDim idx mid = (files', r)) :
    StartsEmpty J tenantId embeddingDim files' r := by
  rcases Tenant.startEmpty_cases J env dir tenantId embeddingDim idx mid with
    hok | ⟨content, e, herr, hc⟩
  · rw [hok, Prod.mk.injEq] at h
    obtain ⟨rfl, rfl⟩ := h
    exact Or.inl ⟨_, rfl, rfl, rfl, rfl⟩
  · rw [herr, Prod.mk.injEq] at h
    obtain ⟨rfl, rfl⟩ := h
    refine Or.inr ⟨⟨e, rfl⟩, ?_⟩
    rw [← hmid]
    exact hc

/-- Without a `meta.json` an open writes an empty sidecar with the requested id, or fails. -/
theorem open_fresh (hmeta : files.metaJson = none) {r : Except TenantError (Tenant E)}
    (h : Tenant.open J env dir files tenantId embeddingDim = (files', r)) :
    StartsEmpty J tenantId embeddingDim files' r := by
  -- both branches end in `startEmpty`, or stop before it with `meta.json` still missing
  cases Tenant.open_ends h with
  | stopped e => exact Or.inr ⟨⟨e, rfl⟩, Or.inl hmeta⟩
  | unopened e hopen => exact Or.inr ⟨⟨e, rfl⟩, Or.inl hmeta⟩
  | uncreated hmiss => exact Or.inr ⟨⟨_, rfl⟩, Or.inl hmeta⟩
  | reopened hold =>
    rw [hmeta] at hold
    simp at hold
  | @adopted engine idx _ _ hmiss hopen hdim hstart =>
    have hmid : ({ files with engine } : Dir E).metaJson = none := hmiss
    exact startEmpty_startsEmpty hmid hstart
  | @created engine idx _ _ hmiss hindex hcreate hstart =>
    have hmid : ({ files with engine } : Dir E).metaJson = none := hmiss
    exact startEmpty_startsEmpty hmid hstart

/-- The requested id has no part in whether an open over a readable sidecar fails. -/
theorem open_error_iff {w : MetadataSidecar} (hdisk : Tenant.diskSidecar J files = some w)
    (env : OpenEnv E) (dir : PathBuf) (tenantId : TenantId) (embeddingDim : UInt32) :
    (∃ e, (Tenant.open J env dir files tenantId embeddingDim).2 = .error e) ↔
      FailsAnyway env files w embeddingDim := by
  obtain ⟨bytes, hmeta, hparse⟩ := Tenant.diskSidecar_eq_some hdisk
  have hbranch : Tenant.branch files = .reopen := by simp [Tenant.branch, hmeta]
  unfold Tenant.open
  cases hmk : env.createDirAll with
  | some e => exact iff_of_true ⟨_, rfl⟩ (Or.inl (by simp [hmk]))
  | none =>
    rw [hbranch]
    dsimp only
    unfold Tenant.reopen
    cases hrd : env.readMeta with
    | some e =>
      rw [MetadataSidecar.readFromPath]
      exact iff_of_true ⟨_, rfl⟩ (Or.inr (Or.inl (by simp [hrd])))
    | none =>
      have hread : MetadataSidecar.readFromPath J none files.metaJson = .ok w := by
        simp [MetadataSidecar.readFromPath, hmeta, hparse]
      rw [hread]
      dsimp only
      by_cases hdim : w.embeddingDim = embeddingDim
      · rw [if_neg (not_not.2 hdim)]
        unfold Tenant.openEngine FailsAnyway
        -- what is left of the condition is about the index alone
        simp only [hmk, hrd, hdim, Option.isSome_none, Bool.false_eq_true, ne_eq, not_true_eq_false,
          false_or]
        generalize E.openIndex env.engine files.engine = o
        obtain ⟨engine, res⟩ := o
        cases res with
        | error e => simp
        | ok idx =>
          by_cases hidx : asU32 (E.dim idx) = embeddingDim <;> simp [hidx]
      · rw [if_pos hdim]
        exact iff_of_true ⟨_, rfl⟩ (Or.inr (Or.inr (Or.inl hdim)))

end Sidecars

/-! ## What a call hands on -/

section Carries

variable {J : SerdeJson} {id : TenantId} {files files' dest : Dir E} {t t' : Tenant E}

/-- `files'` still has its `meta.json`, and a sidecar in it records `id` or was in `files`. -/
structure Carries (J : SerdeJson) (id : TenantId) (files files' : Dir E) : Prop where
  present : files.metaJson.isSome = true → files'.metaJson.isSome = true
  sidecar : ∀ w, Tenant.diskSidecar J files' = some w →
    w.tenantId = id ∨ Tenant.diskSidecar J files = some w

theorem Carries.of_metaJson (h : files'.metaJson = files.metaJson) : Carries J id files files' where
  present hp := by rw [h]; exact hp
  sidecar w hw := by
    right
    rwa [Tenant.diskSidecar, h] at hw

theorem Carries.wrote (hJ : J.Laws) {w : MetadataSidecar} (hid : w.tenantId = id)
    (h : files'.metaJson = some (J.toVec w)) : Carries J id files files' where
  present _ := by rw [h]; rfl
  sidecar w' hw' := by
    rw [Tenant.diskSidecar_of_parse h (hJ.roundTrip w), Option.some.injEq] at hw'
    exact Or.inl (hw' ▸ hid)

theorem Carries.torn (hJ : J.Laws) {w : MetadataSidecar} {n : Nat} (hn : n < (J.toVec w).length)
    (h : files'.metaJson = some ((J.toVec w).take n)) : Carries J id files files' where
  present _ := by rw [h]; rfl
  sidecar w' hw' := by
    rw [Tenant.diskSidecar_torn hJ hn h] at hw'
    simp at hw'

theorem flush_carries (hJ : J.Laws) (hid : t.inner.sidecar.tenantId = id) (o : WriteOutcome)
    (files : Dir E) : Carries J id files (t.flush J o files).1 := by
  rcases Tenant.flush_cases J o files t with ⟨-, h⟩ | ⟨-, h⟩ | ⟨-, content, e, h, hc⟩
  · rw [h]
    exact .of_metaJson rfl
  · rw [h]
    exact .wrote hJ hid rfl
  · rw [h]
    rcases hc with hsame | ⟨n, hn, hcut⟩
    · exact .of_metaJson hsame
    · exact .torn hJ hn hcut

/-- To the tenant directory a snapshot elsewhere is a flush. -/
theorem snapshot_carries (hJ : J.Laws) (hid : t.inner.sidecar.tenantId = id) (o : WriteOutcome)
    (env : Tenant.CopyEnv) (files dest : Dir E) :
    Carries J id files (t.snapshot J o env files dest).1 := by
  rw [Tenant.snapshot_files]
  cases env.createDirAll with
  | some e => exact .of_metaJson rfl
  | none => exact flush_carries hJ hid o files

/-- Wherever a copy stops, the destination has its own `meta.json` or that of the source. -/
theorem copyDirContents_metaJson (fail : Option (Nat × IoError)) (src : Dir E)
    (order : List Tenant.DirEntry) (dest : Dir E) :
    (Tenant.copyDirContents fail src order dest).1.metaJson = dest.metaJson ∨
      src.metaJson.isSome = true ∧
        (Tenant.copyDirContents fail src order dest).1.metaJson = src.metaJson := by
  apply Tenant.copyDirContents_invariant (P := fun mid => mid.metaJson = dest.metaJson ∨
    src.metaJson.isSome = true ∧ mid.metaJson = src.metaJson) _ fail order (Or.inl rfl)
  intro mid mid' entry hmid hcopy
  cases entry with
  | metaJson =>
    obtain ⟨bytes, hsrc, rfl⟩ := Option.map_eq_some_iff.1 hcopy
    exact Or.inr ⟨by rw [hsrc]; rfl, hsrc.symm⟩
  | engine name =>
    obtain ⟨c, -, rfl⟩ := Option.map_eq_some_iff.1 hcopy
    exact hmid

/-- A snapshot over another directory leaves that one its `meta.json` or gives it the flushed
one. -/
theorem snapshot_over (J : SerdeJson) (o : WriteOutcome) (env : Tenant.CopyEnv)
    (files dest : Dir E) (t : Tenant E) :
    (t.snapshot J o env files dest).2.1.metaJson = dest.metaJson ∨
      (t.snapshot J o env files dest).1.metaJson.isSome = true ∧
        (t.snapshot J o env files dest).2.1.metaJson =
          (t.snapshot J o env files dest).1.metaJson := by
  unfold Tenant.snapshot
  cases env.createDirAll with
  | some e => exact Or.inl rfl
  | none =>
    dsimp only
    generalize t.flush J o files = fl
    obtain ⟨mid, res⟩ := fl
    cases res with
    | error e => exact Or.inl rfl
    | ok u =>
      dsimp only
      have hcopied := copyDirContents_metaJson env.fail mid env.order dest
      generalize Tenant.copyDirContents env.fail mid env.order dest = cp at hcopied
      obtain ⟨dest', cres⟩ := cp
      cases cres with
      | error e => exact hcopied
      | ok u => exact hcopied

/-- No lawful reader takes the empty text for a sidecar. -/
theorem fromSlice_nil (hJ : J.Laws) (w : MetadataSidecar) : J.fromSlice [] ≠ .ok w := by
  intro h
  -- two sidecars cannot share the empty text
  let w' : MetadataSidecar := { w with records := ⟨0, true, [], []⟩ :: w.records }
  by_cases hlen : 0 < (J.toVec w').length
  · obtain ⟨e, he⟩ := hJ.truncated w' 0 hlen
    rw [List.take_zero, h] at he
    simp at he
  · have hnil : J.toVec w' = [] := List.length_eq_zero_iff.1 (by omega)
    have hround := hJ.roundTrip w'
    rw [hnil, h, Except.ok.injEq] at hround
    exact List.cons_ne_self _ _ (congrArg MetadataSidecar.records hround).symm

theorem emptyFile_carries (hJ : J.Laws) (emptied : String → E.Content)
    (h : Carries J id files files') (entry : Tenant.DirEntry) :
    Carries J id files (emptyFile emptied files' entry) := by
  cases entry with
  | metaJson =>
    refine ⟨fun _ => rfl, ?_⟩
    intro w hw
    obtain ⟨bytes, hbytes, hparse⟩ := Tenant.diskSidecar_eq_some hw
    rw [emptyFile, Option.some.injEq] at hbytes
    rw [← hbytes] at hparse
    exact absurd hparse (fromSlice_nil hJ w)
  | engine name => exact ⟨h.present, h.sidecar⟩

theorem snapshotOntoItself_carries (hJ : J.Laws) (hid : t.inner.sidecar.tenantId = id)
    (o : WriteOutcome) (env : Tenant.CopyEnv) (emptied : String → E.Content) (files : Dir E) :
    Carries J id files (snapshotOntoItself J o env emptied files t) := by
  unfold snapshotOntoItself
  cases env.createDirAll with
  | some e => exact .of_metaJson rfl
  | none =>
    have hflush := flush_carries hJ hid o files
    generalize t.flush J o files = fl at hflush
    obtain ⟨mid, res⟩ := fl
    cases res with
    | error e => exact hflush
    | ok u =>
      dsimp only
      generalize reached env = entries
      induction entries generalizing mid with
      | nil => exact hflush
      | cons entry entries ih =>
        exact ih _ (emptyFile_carries hJ emptied hflush entry)

/-- The ids of a handle and of its sidecar. -/
def HasId (t : Tenant E) (id : TenantId) : Prop := t.tenantId = id ∧ t.inner.sidecar.tenantId = id

theorem insert_carries {env : E.Env} {r : Tenant.Record F} {res : Except TenantError Unit}
    (ht : HasId t id) (h : t.insert env files r = (files', t', res)) :
    files'.metaJson = files.metaJson ∧ HasId t' id := by
  have hstate : ∀ {files' t' res}, Tenant.insertState env files t r = (files', t', res) →
      files'.metaJson = files.metaJson ∧ HasId t' id := by
    intro files' t' res h
    rcases Tenant.insertState_ends h with
      ⟨rfl, rfl, -⟩ | ⟨-, engine, index, ires, -, rfl, ⟨-, rfl⟩ | ⟨-, -, rfl⟩⟩
    · exact ⟨rfl, ht⟩
    · exact ⟨rfl, ht⟩
    · exact ⟨rfl, ht⟩
  rw [Tenant.insert_eq] at h
  simp only [Prod.mk.injEq] at h
  obtain ⟨rfl, rfl, -⟩ := h
  obtain ⟨hmeta, hid⟩ := hstate (Prod.eta (Tenant.insertState env files t r)).symm
  refine ⟨hmeta, ?_⟩
  split
  · exact hid
  · exact hid

theorem delete_hasId (ht : HasId t id) (record : RecordId) : HasId (t.delete record).1 id := by
  have hstate : HasId (t.deleteState record).1 id := by
    rcases Tenant.deleteState_cases t record with ⟨-, h⟩ | ⟨-, h⟩
    · rw [h]
      exact ht
    · rw [h]
      exact ht
  unfold Tenant.delete
  generalize t.deleteState record = o at hstate
  obtain ⟨t', res⟩ := o
  cases res with
  | error e => exact hstate
  | ok removed => cases removed <;> exact hstate

theorem consolidate_carries {env : E.Env} {res : Except TenantError Unit}
    (ht : HasId t id) (h : t.consolidate env files = (files', t', res)) :
    files'.metaJson = files.metaJson ∧ HasId t' id := by
  rcases Tenant.consolidate_ends h with ⟨rfl, rfl⟩ | ⟨engine, index, cres, -, rfl, rfl⟩
  · exact ⟨rfl, ht⟩
  · exact ⟨rfl, ht⟩

/-- A handle from `open_readonly_at` carries the id of the sidecar it read. -/
theorem openReadonlyAt_hasId {env : OpenEnv E} {dir : PathBuf}
    {r : Except TenantError (Tenant E)}
    (h : Tenant.openReadonlyAt J env dir files = (files', r)) :
    files'.metaJson = files.metaJson ∧ ∀ t, r = .ok t →
      Tenant.diskSidecar J files = some t.inner.sidecar ∧
        t.tenantId = t.inner.sidecar.tenantId := by
  cases Tenant.openReadonlyAt_ends h with
  | stopped e => exact ⟨rfl, fun t ht => by simp at ht⟩
  | unopened e hopen => exact ⟨rfl, fun t ht => by simp at ht⟩
  | opened hmeta hparse hopen hdim =>
    refine ⟨rfl, ?_⟩
    intro t ht
    rw [← Except.ok.inj ht]
    exact ⟨Tenant.diskSidecar_of_parse hmeta hparse, rfl⟩

/-- A restored handle carries the id of the sidecar in the snapshot, and so does its directory. -/
theorem restoreFrom_hasId {copy : Tenant.CopyEnv} {env : OpenEnv E} {srcPath destPath : PathBuf}
    {src dest' : Dir E}
    (h : Tenant.restoreFrom J copy env srcPath destPath src dest = (dest', .ok t)) :
    Tenant.diskSidecar J src = some t.inner.sidecar ∧
      Tenant.diskSidecar J dest' = some t.inner.sidecar ∧
        t.tenantId = t.inner.sidecar.tenantId := by
  obtain ⟨hempty, mid, bytes, w, hcopy, hmid, hparse, hopen⟩ := Tenant.restoreFrom_copied h
  have hcopied := copyDirContents_metaJson copy.fail src copy.order dest
  rw [hcopy] at hcopied
  obtain ⟨hdest', hhandle⟩ := open_over hmid hopen
  obtain ⟨hid, hside⟩ := hhandle t rfl
  have hw : t.inner.sidecar = w := by
    rw [hparse] at hside
    exact (Except.ok.inj hside).symm
  -- the destination had no sidecar, so the one that was read came with the copy
  have hsrc : src.metaJson = some bytes := by
    rcases hcopied with hnone | ⟨-, hsame⟩
    · rw [hmid, hempty] at hnone
      simp at hnone
    · exact hsame.symm.trans hmid
  exact ⟨Tenant.diskSidecar_of_parse hsrc hside, Tenant.diskSidecar_of_parse hdest' hside,
    hid.trans (by rw [hw])⟩

end Carries

/-! ## One operation -/

section Operations

variable {J : SerdeJson} {path : Nat → PathBuf} {id : TenantId} {s : Family E} {i k : Nat}
  {files files' : Dir E} {t t' : Tenant E}

theorem handleAt_eq_some (h : s.handleAt k = some (i, t, files)) :
    (i, t) ∈ s.handles ∧ s.dirs[i]? = some files := by
  unfold handleAt at h
  split at h
  · simp at h
  · rename_i i' t' hk
    obtain ⟨files', hdir, heq⟩ := Option.map_eq_some_iff.1 h
    cases heq
    exact ⟨List.mem_of_getElem? hk, hdir⟩

/-- A directory of the family is replaced by one that carries its sidecar on. -/
theorem Agrees.persisted_set (ha : Agrees J id s) (hdir : s.dirs[i]? = some files)
    (hc : Carries J id files files') :
    ∀ d ∈ s.dirs.set i files', ∀ w, Tenant.diskSidecar J d = some w → w.tenantId = id := by
  intro d hd w hw
  rcases List.mem_or_eq_of_mem_set hd with hold | rfl
  · exact ha.persisted d hold w hw
  · rcases hc.sidecar w hw with hid | hold
    · exact hid
    · exact ha.persisted files (List.mem_of_getElem? hdir) w hold

theorem Agrees.called (ha : Agrees J id s) (hdir : s.dirs[i]? = some files)
    (hc : Carries J id files files') (ht : HasId t' id) : Agrees J id (s.called k i files' t') where
  reported := ha.reported
  held h hh := by
    rcases List.mem_or_eq_of_mem_set hh with hold | rfl
    · exact ha.held h hold
    · exact ht
  persisted := ha.persisted_set hdir hc

theorem Agrees.opened (ha : Agrees J id s) (hdir : s.dirs[i]? = some files)
    (hmeta : files'.metaJson = files.metaJson) {r : Except TenantError (Tenant E)}
    (ht : ∀ t, r = .ok t → HasId t id) : Agrees J id (s.opened i (files', r)) := by
  have hpersisted := ha.persisted_set hdir (.of_metaJson hmeta)
  cases r with
  | error e => exact ⟨ha.reported, ha.held, hpersisted⟩
  | ok t =>
    obtain ⟨hid, hside⟩ := ht t rfl
    refine ⟨?_, ?_, hpersisted⟩
    · intro j hj
      rcases List.mem_append.1 hj with hold | hnew
      · exact ha.reported j hold
      · rw [List.mem_singleton.1 hnew]
        exact hid
    · intro h hh
      rcases List.mem_append.1 hh with hold | hnew
      · exact ha.held h hold
      · rw [List.mem_singleton.1 hnew]
        exact ⟨hid, hside⟩

/-- A directory joins the family. -/
theorem Agrees.joined (ha : Agrees J id s)
    (hc : ∀ w, Tenant.diskSidecar J files' = some w → w.tenantId = id) :
    Agrees J id { s with dirs := s.dirs ++ [files'] } where
  reported := ha.reported
  held := ha.held
  persisted d hd w hw := by
    rcases List.mem_append.1 hd with hold | hnew
    · exact ha.persisted d hold w hw
    · rw [List.mem_singleton.1 hnew] at hw
      exact hc w hw

theorem Agrees.diskSidecar (ha : Agrees J id s) (hdir : s.dirs[i]? = some files)
    {w : MetadataSidecar} (hw : Tenant.diskSidecar J files = some w) : w.tenantId = id :=
  ha.persisted files (List.mem_of_getElem? hdir) w hw

/-- Every directory of the family has a `meta.json`. -/
def Marked (s : Family E) : Prop := ∀ files ∈ s.dirs, files.metaJson.isSome = true

theorem Marked.set (hm : Marked s) (h : files'.metaJson.isSome = true) :
    ∀ d ∈ s.dirs.set i files', d.metaJson.isSome = true := by
  intro d hd
  rcases List.mem_or_eq_of_mem_set hd with hold | rfl
  · exact hm d hold
  · exact h

theorem Marked.append (hm : Marked s) (h : files'.metaJson.isSome = true) :
    ∀ d ∈ s.dirs ++ [files'], d.metaJson.isSome = true := by
  intro d hd
  rcases List.mem_append.1 hd with hold | hnew
  · exact hm d hold
  · rw [List.mem_singleton.1 hnew]
    exact h

theorem Marked.at (hm : Marked s) (hdir : s.dirs[i]? = some files) :
    ∃ bytes, files.metaJson = some bytes :=
  Option.isSome_iff_exists.1 (hm files (List.mem_of_getElem? hdir))

/-- An opening over a `meta.json`, whichever function does it. -/
theorem settled_opened (hm : Marked s) (ha : Agrees J id s) (hdir : s.dirs[i]? = some files)
    (hmeta : files'.metaJson = files.metaJson) {r : Except TenantError (Tenant E)}
    (ht : ∀ t, r = .ok t → HasId t id) :
    Marked (s.opened i (files', r)) ∧ Agrees J id (s.opened i (files', r)) := by
  refine ⟨?_, ha.opened hdir hmeta ht⟩
  have hset := hm.set (i := i) (hmeta ▸ hm files (List.mem_of_getElem? hdir))
  cases r with
  | error e => exact hset
  | ok t => exact hset

theorem settled_called (hm : Marked s) (ha : Agrees J id s) (hdir : s.dirs[i]? = some files)
    (hc : Carries J id files files') (ht : HasId t' id) :
    Marked (s.called k i files' t') ∧ Agrees J id (s.called k i files' t') :=
  ⟨hm.set (hc.present (hm files (List.mem_of_getElem? hdir))), ha.called hdir hc ht⟩

/-- `open` on a directory of the family, when it asks for the recorded id or fails. -/
theorem settled_open (hm : Marked s) (ha : Agrees J id s) (hdir : s.dirs[i]? = some files)
    {env : OpenEnv E} {tenantId : TenantId} {embeddingDim : UInt32}
    (hasks : AsksRecordedId J s (.open i env tenantId embeddingDim)) :
    Marked (s.opened i (Tenant.open J env (path i) files tenantId embeddingDim)) ∧
      Agrees J id (s.opened i (Tenant.open J env (path i) files tenantId embeddingDim)) := by
  obtain ⟨bytes, hmeta⟩ := hm.at hdir
  have herror := fun w (hdisk : Tenant.diskSidecar J files = some w) =>
    open_error_iff hdisk env (path i) tenantId embeddingDim
  generalize hopen : Tenant.open J env (path i) files tenantId embeddingDim = o at herror
  obtain ⟨files', r⟩ := o
  obtain ⟨hmeta', hhandle⟩ := open_over hmeta hopen
  apply settled_opened hm ha hdir (hmeta'.trans hmeta.symm)
  rintro t rfl
  obtain ⟨hid, hparse⟩ := hhandle t rfl
  have hdisk := Tenant.diskSidecar_of_parse hmeta hparse
  have hside := ha.diskSidecar hdir hdisk
  refine ⟨?_, hside⟩
  -- asking for another id would have failed
  by_contra hother
  have hne : t.inner.sidecar.tenantId ≠ tenantId := by
    rw [hside, ← hid]
    exact Ne.symm hother
  obtain ⟨e, he⟩ := (herror _ hdisk).2 (hasks files _ hdir hdisk hne)
  simp at he

/-- A snapshot into a new directory: the copy that joins the family carries its id. -/
theorem settled_snapshot (hJ : J.Laws) (hm : Marked s) (ha : Agrees J id s)
    (w : WriteOutcome) (env : SnapshotEnv) (dest : Dir E) :
    Marked (step J path s (.snapshot k w env dest)) ∧
      Agrees J id (step J path s (.snapshot k w env dest)) := by
  simp only [step]
  cases hk : s.handleAt k with
  | none => exact ⟨hm, ha⟩
  | some p =>
    obtain ⟨i, t, files⟩ := p
    obtain ⟨hmem, hdir⟩ := handleAt_eq_some hk
    have ht := ha.held _ hmem
    have hc := snapshot_carries hJ ht.2 w env.toCopyEnv files dest
    dsimp only
    generalize hsnap : t.snapshot J w env.toCopyEnv files dest = o at hc
    obtain ⟨files', dest', res⟩ := o
    obtain ⟨hm', ha'⟩ := settled_called (k := k) hm ha hdir hc ht
    cases res with
    | error e => exact ⟨hm', ha'⟩
    | ok u =>
      have hmeta : dest'.metaJson = files'.metaJson := by
        apply Tenant.content_metaJson_inj
        rw [Tenant.copyDirContents_ok (Tenant.snapshot_ok hsnap).2, if_pos env.listed]
      refine ⟨hm'.append ?_, ha'.joined ?_⟩
      · rw [hmeta]
        exact hc.present (hm files (List.mem_of_getElem? hdir))
      · intro v hv
        rw [Tenant.diskSidecar, hmeta] at hv
        rcases hc.sidecar v hv with hid | hold
        · exact hid
        · exact ha.diskSidecar hdir hold

/-- A snapshot over a directory of the family, which may be the tenant's own. -/
theorem settled_snapshotOver (hJ : J.Laws) (hm : Marked s) (ha : Agrees J id s)
    (w : WriteOutcome) (env : SnapshotEnv) (j : Nat) (emptied : String → E.Content) :
    Marked (step J path s (.snapshotOver k w env j emptied)) ∧
      Agrees J id (step J path s (.snapshotOver k w env j emptied)) := by
  simp only [step]
  cases hk : s.handleAt k with
  | none => exact ⟨hm, ha⟩
  | some p =>
    cases hj : s.dirs[j]? with
    | none => exact ⟨hm, ha⟩
    | some dest =>
      obtain ⟨i, t, files⟩ := p
      obtain ⟨hmem, hdir⟩ := handleAt_eq_some hk
      have ht := ha.held _ hmem
      dsimp only
      split
      · exact settled_called hm ha hdir
          (snapshotOntoItself_carries hJ ht.2 w env.toCopyEnv emptied files) ht
      · rename_i hne
        have hc := snapshot_carries hJ ht.2 w env.toCopyEnv files dest
        have hover := snapshot_over J w env.toCopyEnv files dest t
        generalize t.snapshot J w env.toCopyEnv files dest = o at hc hover
        obtain ⟨files', dest', res⟩ := o
        obtain ⟨hm', ha'⟩ := settled_called (k := k) hm ha hdir hc ht
        have hdest : (s.called k i files' t).dirs[j]? = some dest := by
          rw [called, List.getElem?_set_ne hne]
          exact hj
        have hcdest : Carries J id dest dest' := by
          rcases hover with hsame | ⟨hpresent, hcopied⟩
          · exact .of_metaJson hsame
          · refine ⟨fun _ => hcopied ▸ hpresent, ?_⟩
            intro v hv
            rw [Tenant.diskSidecar, hcopied] at hv
            rcases hc.sidecar v hv with hid | hold
            · exact Or.inl hid
            · exact Or.inl (ha.diskSidecar hdir hold)
        exact ⟨hm'.set (hcdest.present (hm dest (List.mem_of_getElem? hj))),
          ha'.reported, ha'.held, ha'.persisted_set hdest hcdest⟩

/-- A restore into a new directory: the tenant and the directory carry the id of the snapshot. -/
theorem settled_restoreFrom (hm : Marked s) (ha : Agrees J id s) (copy : Tenant.CopyEnv)
    (env : OpenEnv E) (dest : Dir E) :
    Marked (step J path s (.restoreFrom i copy env dest)) ∧
      Agrees J id (step J path s (.restoreFrom i copy env dest)) := by
  simp only [step]
  cases hdir : s.dirs[i]? with
  | none => exact ⟨hm, ha⟩
  | some files =>
    dsimp only
    generalize hres : Tenant.restoreFrom J copy env (path i) (path s.dirs.length) files dest = o
    obtain ⟨dest', r⟩ := o
    cases r with
    | error e => exact ⟨hm, ha⟩
    | ok t =>
      obtain ⟨hsrc, hdest, hid⟩ := restoreFrom_hasId hres
      have hside := ha.diskSidecar hdir hsrc
      obtain ⟨bytes, hmeta, -⟩ := Tenant.diskSidecar_eq_some hdest
      refine ⟨hm.append (by rw [hmeta]; rfl), ?_, ?_, ?_⟩
      · intro j hj
        rcases List.mem_append.1 hj with hold | hnew
        · exact ha.reported j hold
        · rw [List.mem_singleton.1 hnew]
          exact hid.trans hside
      · intro h hh
        rcases List.mem_append.1 hh with hold | hnew
        · exact ha.held h hold
        · rw [List.mem_singleton.1 hnew]
          exact ⟨hid.trans hside, hside⟩
      · apply (ha.joined _).persisted
        intro v hv
        rw [hdest, Option.some.injEq] at hv
        exact hv ▸ hside

/-- A step of a family that has one id and a sidecar in every directory. -/
theorem settled_step (hJ : J.Laws) (hm : Marked s) (ha : Agrees J id s) {o : Op E}
    (ho : AsksRecordedId J s o) : Marked (step J path s o) ∧ Agrees J id (step J path s o) := by
  cases o with
  | «open» i env tenantId embeddingDim =>
    simp only [step]
    cases hdir : s.dirs[i]? with
    | none => exact ⟨hm, ha⟩
    | some files => exact settled_open hm ha hdir ho
  | createNew i env tenantId embeddingDim =>
    simp only [step]
    cases hdir : s.dirs[i]? with
    | none => exact ⟨hm, ha⟩
    | some files =>
      dsimp only
      rw [Tenant.createNew, if_pos (hm files (List.mem_of_getElem? hdir))]
      exact settled_opened hm ha hdir rfl fun t ht => by simp at ht
  | openReadonly i env =>
    simp only [step]
    cases hdir : s.dirs[i]? with
    | none => exact ⟨hm, ha⟩
    | some files =>
      dsimp only
      generalize hopen : Tenant.openReadonlyAt J env (path i) files = o
      obtain ⟨files', r⟩ := o
      obtain ⟨hmeta, hhandle⟩ := openReadonlyAt_hasId hopen
      apply settled_opened hm ha hdir hmeta
      intro t ht
      obtain ⟨hdisk, hid⟩ := hhandle t ht
      have hside := ha.diskSidecar hdir hdisk
      exact ⟨hid.trans hside, hside⟩
  | insert k env r =>
    simp only [step]
    cases hk : s.handleAt k with
    | none => exact ⟨hm, ha⟩
    | some p =>
      obtain ⟨i, t, files⟩ := p
      obtain ⟨hmem, hdir⟩ := handleAt_eq_some hk
      dsimp only
      generalize hins : Tenant.insert env files t r = o
      obtain ⟨files', t', res⟩ := o
      obtain ⟨hmeta, ht'⟩ := insert_carries (ha.held _ hmem) hins
      exact settled_called hm ha hdir (.of_metaJson hmeta) ht'
  | delete k record =>
    simp only [step]
    cases hk : s.handleAt k with
    | none => exact ⟨hm, ha⟩
    | some p =>
      obtain ⟨i, t, files⟩ := p
      obtain ⟨hmem, hdir⟩ := handleAt_eq_some hk
      exact settled_called hm ha hdir (.of_metaJson rfl) (delete_hasId (ha.held _ hmem) record)
  | flush k w =>
    simp only [step]
    cases hk : s.handleAt k with
    | none => exact ⟨hm, ha⟩
    | some p =>
      obtain ⟨i, t, files⟩ := p
      obtain ⟨hmem, hdir⟩ := handleAt_eq_some hk
      have ht := ha.held _ hmem
      exact settled_called hm ha hdir (flush_carries hJ ht.2 w files) ht
  | consolidate k env =>
    simp only [step]
    cases hk : s.handleAt k with
    | none => exact ⟨hm, ha⟩
    | some p =>
      obtain ⟨i, t, files⟩ := p
      obtain ⟨hmem, hdir⟩ := handleAt_eq_some hk
      dsimp only
      generalize hcon : Tenant.consolidate env files t = o
      obtain ⟨files', t', res⟩ := o
      obtain ⟨hmeta, ht'⟩ := consolidate_carries (ha.held _ hmem) hcon
      exact settled_called hm ha hdir (.of_metaJson hmeta) ht'
  | snapshot k w env dest => exact settled_snapshot hJ hm ha w env dest
  | snapshotOver k w env j emptied => exact settled_snapshotOver hJ hm ha w env j emptied
  | restoreFrom i copy env dest => exact settled_restoreFrom hm ha copy env dest
  | restoreOver i copy env j =>
    simp only [step]
    cases hdir : s.dirs[i]? with
    | none => exact ⟨hm, ha⟩
    | some files =>
      cases hj : s.dirs[j]? with
      | none => exact ⟨hm, ha⟩
      | some dest =>
        dsimp only
        -- every directory of the family is populated
        rw [Tenant.restoreFrom, if_pos (hm dest (List.mem_of_getElem? hj))]
        exact settled_opened hm ha hj rfl fun t ht => by simp at ht
  | drop k => exact ⟨hm, ha.reported, fun h hh => ha.held h (List.mem_of_mem_eraseIdx hh),
      ha.persisted⟩

/-- One directory without a readable sidecar and no handle, or the first handle on it. -/
def Founded (J : SerdeJson) (s : Family E) : Prop :=
  (∃ files, s = init files ∧ Tenant.diskSidecar J files = none) ∨
    ∃ files t, s = ⟨[files], [(0, t)], [t.tenantId]⟩ ∧ HasId t t.tenantId ∧
      files.metaJson = some (J.toVec t.inner.sidecar)

theorem founded_init (hmeta : files.metaJson = none) : Founded J (init files) := by
  refine Or.inl ⟨files, rfl, ?_⟩
  rw [Tenant.diskSidecar, hmeta]
  rfl

theorem founded_open (hJ : J.Laws) (hmeta : files.metaJson = none) (env : OpenEnv E)
    (dir : PathBuf) (tenantId : TenantId) (embeddingDim : UInt32) :
    Founded J ((init files).opened 0 (Tenant.open J env dir files tenantId embeddingDim)) := by
  generalize ho : Tenant.open J env dir files tenantId embeddingDim = o
  obtain ⟨files', r⟩ := o
  rcases open_fresh hmeta ho with ⟨t, rfl, hid, hside, hmeta'⟩ | ⟨⟨e, rfl⟩, hmeta'⟩
  · have ht : HasId t t.tenantId := ⟨rfl, by rw [hside, hid]; rfl⟩
    exact Or.inr ⟨files', t, rfl, ht, hmeta'⟩
  · refine Or.inl ⟨files', rfl, ?_⟩
    rcases hmeta' with hnone | ⟨n, hn, hcut⟩
    · rw [Tenant.diskSidecar, hnone]
      rfl
    · exact Tenant.diskSidecar_torn hJ hn hcut

/-- The family of a directory that has no `meta.json` yet has no handle. An operation on it opens
the tenant, with the id asked for, or leaves no readable sidecar behind. -/
theorem fresh_step (hJ : J.Laws) (hmeta : files.metaJson = none) (o : Op E) :
    Founded J (step J path (init files) o) := by
  have hstay : Founded J (init files) := founded_init hmeta
  cases o with
  | «open» i env tenantId embeddingDim =>
    cases i with
    | zero => exact founded_open hJ hmeta env (path 0) tenantId embeddingDim
    | succ i => exact hstay
  | createNew i env tenantId embeddingDim =>
    cases i with
    | zero =>
      have hnew : Tenant.createNew J env (path 0) files tenantId embeddingDim =
          Tenant.open J env (path 0) files tenantId embeddingDim := by
        rw [Tenant.createNew, hmeta]
        rfl
      have hstep : step J path (init files) (.createNew 0 env tenantId embeddingDim) =
          (init files).opened 0 (Tenant.createNew J env (path 0) files tenantId embeddingDim) := rfl
      rw [hstep, hnew]
      exact founded_open hJ hmeta env (path 0) tenantId embeddingDim
    | succ i => exact hstay
  | openReadonly i env =>
    cases i with
    | zero =>
      have hstep : step J path (init files) (.openReadonly 0 env) =
          (init files).opened 0 (Tenant.openReadonlyAt J env (path 0) files) := rfl
      rw [hstep, Tenant.openReadonlyAt, hmeta]
      exact hstay
    | succ i => exact hstay
  | restoreFrom i copy env dest =>
    cases i with
    | zero =>
      -- there is no snapshot to restore from, whatever the destination holds
      have hfails : ∃ d e, Tenant.restoreFrom J copy env (path 0) (path 1) files dest =
          (d, .error e) := by
        unfold Tenant.restoreFrom
        split
        · exact ⟨_, _, rfl⟩
        · rw [hmeta]
          exact ⟨_, _, rfl⟩
      obtain ⟨d, e, hres⟩ := hfails
      have hstep : step J path (init files) (.restoreFrom 0 copy env dest) =
          match Tenant.restoreFrom J copy env (path 0) (path 1) files dest with
          | (dest, .ok t) => ⟨[files, dest], [(1, t)], [t.tenantId]⟩
          | (_, .error _) => init files := rfl
      rw [hstep, hres]
      exact hstay
    | succ i => exact hstay
  | restoreOver i copy env j =>
    cases i with
    | zero =>
      cases j with
      | zero =>
        have hstep : step J path (init files) (.restoreOver 0 copy env 0) =
            (init files).opened 0
              (Tenant.restoreFrom J copy env (path 0) (path 0) files files) := rfl
        rw [hstep, Tenant.restoreFrom, hmeta]
        exact hstay
      | succ j => exact hstay
    | succ i => exact hstay
  -- there is no handle to call
  | insert k env r => exact hstay
  | delete k record => exact hstay
  | flush k w => exact hstay
  | consolidate k env => exact hstay
  | snapshot k w env dest => exact hstay
  | snapshotOver k w env j emptied => exact hstay
  | drop k => exact hstay

/-! ## Along a run -/

/-- The family has one id and a sidecar file in every directory, or it is one directory that has
no sidecar file yet. -/
def Inv (J : SerdeJson) (s : Family E) : Prop :=
  (Marked s ∧ Identified J s) ∨ ∃ files, s = init files ∧ files.metaJson = none

theorem init_agrees (h : ∀ w, Tenant.diskSidecar J files = some w → w.tenantId = id) :
    Agrees J id (init files) where
  reported i hi := by simp [init] at hi
  held p hp := by simp [init] at hp
  persisted d hd w hw := by
    rw [List.mem_singleton.1 hd] at hw
    exact h w hw

theorem init_identified (J : SerdeJson) (files : Dir E) : Identified J (init files) := by
  cases hdisk : Tenant.diskSidecar J files with
  | none => exact ⟨.zero, init_agrees fun w hw => by rw [hdisk] at hw; simp at hw⟩
  | some w =>
    refine ⟨w.tenantId, init_agrees ?_⟩
    intro w' hw'
    rw [hdisk, Option.some.injEq] at hw'
    rw [hw']

theorem init_inv (J : SerdeJson) (files : Dir E) : Inv J (init files) := by
  cases hmeta : files.metaJson with
  | none => exact Or.inr ⟨files, rfl, hmeta⟩
  | some bytes =>
    refine Or.inl ⟨?_, init_identified J files⟩
    intro d hd
    rw [List.mem_singleton.1 hd, hmeta]
    rfl

theorem Inv.identified (h : Inv J s) : Identified J s := by
  rcases h with ⟨-, hid⟩ | ⟨files, rfl, -⟩
  · exact hid
  · exact init_identified J files

theorem Founded.inv (hJ : J.Laws) (h : Founded J s) : Inv J s := by
  rcases h with ⟨files, rfl, -⟩ | ⟨files, t, rfl, ht, hmeta⟩
  · exact init_inv J files
  · left
    refine ⟨?_, t.tenantId, ?_, ?_, ?_⟩
    · intro d hd
      rw [List.mem_singleton.1 hd, hmeta]
      rfl
    · intro i hi
      exact List.mem_singleton.1 hi
    · intro p hp
      rw [List.mem_singleton.1 hp]
      exact ht
    · intro d hd w hw
      have hparse := Tenant.diskSidecar_of_parse hmeta (hJ.roundTrip t.inner.sidecar)
      rw [List.mem_singleton.1 hd, hparse, Option.some.injEq] at hw
      rw [← hw]
      exact ht.2

theorem step_inv (hJ : J.Laws) (hs : Inv J s) {o : Op E} (ho : AsksRecordedId J s o) :
    Inv J (step J path s o) := by
  rcases hs with ⟨hm, id, ha⟩ | ⟨files, rfl, hmeta⟩
  · obtain ⟨hm', ha'⟩ := settled_step hJ hm ha ho
    exact Or.inl ⟨hm', id, ha'⟩
  · exact (fresh_step hJ hmeta o).inv hJ

/-- A step that refuses every other id is one that asks for the recorded id or fails anyway. -/
theorem refuses_iff (J : SerdeJson) (path : Nat → PathBuf) (s : Family E) (o : Op E) :
    Refuses J path s o ↔ AsksRecordedId J s o := by
  cases o with
  | «open» i env tenantId embeddingDim =>
    constructor
    · intro h files w hdir hdisk hne
      exact (open_error_iff hdisk env (path i) tenantId embeddingDim).1 (h files w hdir hdisk hne)
    · intro h files w hdir hdisk hne
      exact (open_error_iff hdisk env (path i) tenantId embeddingDim).2 (h files w hdir hdisk hne)
  | createNew i env tenantId embeddingDim =>
    refine iff_of_true ?_ trivial
    intro files w _ hdisk _
    obtain ⟨bytes, hmeta, -⟩ := Tenant.diskSidecar_eq_some hdisk
    rw [Tenant.createNew, if_pos (by rw [hmeta]; rfl)]
    exact ⟨_, rfl⟩
  | _ => exact Iff.rfl

/-- In a run from any directory, the family has one id in every state and every open that asks for
another id is refused, exactly when every `open` over a readable sidecar asks for the recorded id or
fails anyway. -/
theorem eachState_identified_iff (hJ : J.Laws) (path : Nat → PathBuf) (files : Dir E)
    (ops : List (Op E)) :
    (Runs.EachState (step J path) (Identified J) (init files) ops ∧
        Runs.EachStep (step J path) (Refuses J path) (init files) ops) ↔
      Runs.EachStep (step J path) (AsksRecordedId J) (init files) ops := by
  constructor
  · rintro ⟨-, hrefuses⟩
    exact hrefuses.imp (step J path) fun s o => (refuses_iff J path s o).1
  · intro hasks
    have hinv : Runs.EachState (step J path) (Inv J) (init files) ops := by
      apply Runs.eachState_of_step (step J path) _ (init_inv J files) hasks
      intro s o hs ho
      exact step_inv hJ hs ho
    exact ⟨hinv.imp (step J path) fun s => Inv.identified,
      hasks.imp (step J path) fun s o => (refuses_iff J path s o).2⟩

end Operations

section Renamed

open Reference

/-- Where the directories of the examples are. -/
def places (i : Nat) : PathBuf := { absolute := true, components := ["srv", toString i] }

/-- Another tenant id. -/
def otherId : TenantId := ⟨Vector.replicate 16 7⟩

/-- Insert, snapshot, restore, and read the copies. -/
def copies : List (Op engine) :=
  [.open 0 quiet .zero 1, .insert 0 false ⟨⟨1⟩, [5], true, [], []⟩,
    .snapshot 0 .done ⟨⟨none, [.engine "tier.kind", .metaJson], none⟩, by decide⟩ Dir.fresh,
    .restoreFrom 1 ⟨none, [.engine "tier.kind", .metaJson], none⟩ quiet Dir.fresh,
    .openReadonly 1 quiet, .createNew 1 quiet otherId 1, .flush 0 .done]

theorem eachState_identified_iff_example :
    Runs.EachState (step json places) (Identified json) (init Dir.fresh) copies := by
  apply ((eachState_identified_iff json_laws places Dir.fresh copies).2 _).1
  simp only [copies, Runs.EachStep, AsksRecordedId, and_true]
  -- the only `open` meets a directory without a sidecar
  rintro files w hdir hdisk
  have hfiles : Dir.fresh = files := Option.some.inj hdir
  rw [← hfiles] at hdisk
  cases hdisk

/-- The tenant is opened again under another id. -/
def reopened : List (Op engine) := [.open 0 quiet .zero 1, .drop 0, .open 0 quiet otherId 1]

/-- The second handle reports the id it was opened with. -/
theorem identified_renamed :
    ¬ ∀ ops : List (Op engine),
      Runs.EachState (step json places) (Identified json) (init Dir.fresh) ops := by
  intro h
  obtain ⟨id, ha⟩ := (Runs.eachState_iff (step json places)).1 (h reopened) _ (List.prefix_refl _)
  have hreported : (Runs.run (step json places) (init Dir.fresh) reopened).reported =
      [.zero, otherId] := by decide +kernel
  have hfirst : TenantId.zero = id := ha.reported _ (by rw [hreported]; simp)
  have hsecond : otherId = id := ha.reported _ (by rw [hreported]; simp)
  have hne : TenantId.zero ≠ otherId := by decide
  exact hne (hfirst.trans hsecond.symm)

end Renamed

end Family

end SkegRigging
