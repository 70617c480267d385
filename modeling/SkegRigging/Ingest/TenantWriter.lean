import SkegRigging.Adapter.Session
import SkegRigging.Ingest.Retry
import SkegRigging.Library.Upserts

/-!
# Ingesting into a tenant directory

An ingest run whose writer is a skeg tenant. Its calls are operations of a session on the tenant
directory (`ingestTree_session`), so what a session keeps, an ingest keeps. A run that returns `Ok`
embedded the chunks of the plan in order and made all their inserts (`ingestFiles_done`), and the
session recorded them (`insertAll_session`).
-/

set_option autoImplicit false

namespace SkegRigging.Ingest

open Session History Replay

variable {M F S : Type} {E : DiskVamanaIndex F S}

/-! ## The writer -/

/-- A tenant directory with the open handle, and the number of calls made through it. -/
structure Shelf (E : DiskVamanaIndex F S) where
  calls : Nat
  files : Dir E
  tenant : Tenant E

/-- `impl TenantWrite for Tenant`. The `n`-th call meets the environment `envs n` if it is an
insert, and its write ends as `o n` if it is a flush. -/
def shelfWriter (J : SerdeJson) (envs : Nat → E.Env) (o : Nat → WriteOutcome) :
    TenantWrite (Shelf E) F TenantError where
  insert s recordId embedding shareable tags payload :=
    match Tenant.insert (envs s.calls) s.files s.tenant
      ⟨recordId, embedding, shareable, tags, payload⟩ with
    | (files, tenant, r) => (⟨s.calls + 1, files, tenant⟩, r)
  flush s :=
    match Tenant.flush J (o s.calls) s.files s.tenant with
    | (files, r) => (⟨s.calls + 1, files, s.tenant⟩, r)
  embeddingDim s := s.tenant.embeddingDim

/-- The record that a call inserts. -/
def InsertCall.record (c : InsertCall F) : Tenant.Record F :=
  ⟨c.recordId, c.embedding, c.shareable, c.tags, c.payload⟩

/-- The operation of a session that the `n`-th call is. -/
def callOp (envs : Nat → E.Env) (o : Nat → WriteOutcome) (n : Nat) : Call F → Op E
  | .insert c => .insert (envs n) c.record
  | .flush _ => .flush (o n)

/-- The calls of a run as operations of a session, after `n` calls. -/
def callOps (envs : Nat → E.Env) (o : Nat → WriteOutcome) : Nat → List (Call F) → List (Op E)
  | _, [] => []
  | n, call :: calls => callOp envs o n call :: callOps envs o (n + 1) calls

section Operations

variable (envs : Nat → E.Env) (o : Nat → WriteOutcome)

/-- The operations of calls after other calls. -/
theorem callOps_append (n : Nat) (xs ys : List (Call F)) :
    callOps envs o n (xs ++ ys) = callOps envs o n xs ++ callOps envs o (n + xs.length) ys := by
  induction xs generalizing n with
  | nil => rfl
  | cons x xs ih =>
    have hcount : n + (x :: xs).length = n + 1 + xs.length := by
      rw [List.length_cons]
      omega
    rw [List.cons_append, callOps, ih, hcount]
    rfl

end Operations

/-! ## A run is a session -/

/-- What a run does with its writer, one call at a time: a relation that every insert keeps, that
holds of nothing done and of one thing after another, holds of the loops. -/
structure Keeps {W Err : Type} (T : TenantWrite W F Err) (R : W → W → Prop) : Prop where
  refl : ∀ w, R w w
  trans : ∀ w w₁ w₂, R w w₁ → R w₁ w₂ → R w w₂
  insert : ∀ w id v shareable tags payload, R w (T.insert w id v shareable tags payload).1

section Loops

variable {W Err : Type} {Em : Embed M F} {T : TenantWrite W F Err} {R : W → W → Prop}
  {opts : IngestOptions} {root : PathBuf} {read : PathBuf → Except IoError Text}

theorem ingestChunks_keeps (hR : Keeps T R) {rel : String} {p q : Pipeline M W} {cs : List Chunk}
    {r : Except (IngestError Err) Unit} (h : ingestChunks Em T opts rel p cs = (q, r)) :
    R p.writer q.writer := by
  induction cs generalizing p with
  | nil =>
    simp only [ingestChunks, Prod.mk.injEq] at h
    rw [← h.1]
    exact hR.refl _
  | cons c cs ih =>
    have hstep : ∀ {p₁ : Pipeline M W} {r₁ : Except (IngestError Err) Unit},
        ingestChunk Em T opts rel p c = (p₁, r₁) → R p.writer p₁.writer := by
      intro p₁ r₁ hc
      have hins := hR.insert p.writer ⟨p.stats.nextId⟩
      rcases ingestChunk_ends Em T opts rel hc with ⟨m, message, -, rfl, -⟩ |
        ⟨m, v, w, e, -, hinsert, rfl, -⟩ | ⟨m, v, w, -, hinsert, rfl, -⟩
      · exact hR.refl _
      · have h₁ := hins v opts.shareable (opts.tags ++ [srcTag rel c]) (utf8 c.text)
        rwa [hinsert] at h₁
      · have h₁ := hins v opts.shareable (opts.tags ++ [srcTag rel c]) (utf8 c.text)
        rwa [hinsert] at h₁
    rcases ingestChunks_cons Em T opts rel h with ⟨e, hc, -⟩ | ⟨p₁, hc, hrest⟩
    · exact hstep hc
    · exact hR.trans _ _ _ (hstep hc) (ih hrest)

theorem ingestFiles_keeps (hR : Keeps T R) {p q : Pipeline M W} {files : List PathBuf}
    {seen : List IngestStats} {r : Except (IngestError Err) Unit}
    (h : ingestFiles Em T opts root read p files = (q, seen, r)) : R p.writer q.writer := by
  induction files generalizing p seen with
  | nil =>
    simp only [ingestFiles, Prod.mk.injEq] at h
    rw [← h.1]
    exact hR.refl _
  | cons file files ih =>
    have hfile : ∀ {p₁ : Pipeline M W} {r₁ : Except (IngestError Err) Unit},
        ingestFile Em T opts root file (read file) p = (p₁, r₁) → R p.writer p₁.writer := by
      intro p₁ r₁ hf
      cases hread : read file with
      | error e =>
        rw [hread, ingestFile, Prod.mk.injEq] at hf
        rw [← hf.1]
        exact hR.refl _
      | ok text =>
        rw [hread] at hf
        exact ingestChunks_keeps hR hf
    rcases ingestFiles_cons Em T opts root read h with ⟨e, hf, -⟩ | ⟨p₁, seen₁, hf, hrest⟩
    · exact hfile hf
    · have hothers := ih hrest
      exact hR.trans _ _ _ (hfile hf) hothers

/-- A run whose loop ends well leaves the writer to its flush. -/
theorem ingestCollected_writer {m : M} {w : W} {paths : List PathBuf} {q : Pipeline M W}
    {seen : List IngestStats} (h : ingestFiles Em T opts root read
      ⟨m, w, .startingAt opts.startId⟩ paths = (q, seen, .ok ())) :
    (ingestCollected Em T opts root read m w paths).writer = (T.flush q.writer).1 := by
  rw [ingestCollected, h]
  dsimp only
  rcases T.flush q.writer with ⟨w', e | ⟨⟩⟩
  · rfl
  · rfl

end Loops

section Simulation

/-- An insert of a session on an open handle. -/
theorem step_insert (J : SerdeJson) (dir : PathBuf) {s : Session E} {t t' : Tenant E} {env : E.Env}
    {r : Tenant.Record F} {files : Dir E} {res : Except TenantError Unit}
    (ht : s.handle = some t) (h : Tenant.insert env s.files t r = (files, t', res)) :
    (step J dir s (.insert env r)).files = files ∧
      (step J dir s (.insert env r)).handle = some t' ∧
      (step J dir s (.insert env r)).history =
        if res.isOk then .inserted r :: s.history else s.history := by
  simp only [step, ht, h]
  cases res with
  | ok u => exact ⟨rfl, rfl, rfl⟩
  | error e => exact ⟨rfl, rfl, rfl⟩

/-- A flush of a session on an open handle. -/
theorem step_flush (J : SerdeJson) (dir : PathBuf) {s : Session E} {t : Tenant E}
    {o : WriteOutcome} {files : Dir E} {res : Except TenantError Unit} (ht : s.handle = some t)
    (h : Tenant.flush J o s.files t = (files, res)) :
    (step J dir s (.flush o)).files = files ∧ (step J dir s (.flush o)).handle = some t ∧
      (step J dir s (.flush o)).history =
        if res.isOk && !t.readOnly then .wrote t.inner.sidecar :: s.history else s.history := by
  simp only [step, ht, h]
  cases res with
  | ok u =>
    cases hro : t.readOnly with
    | true => simp [flushed, hro, ht, Except.isOk, Except.toBool]
    | false => simp [flushed, hro, ht, Except.isOk, Except.toBool]
  | error e => exact ⟨rfl, ht, rfl⟩

/-- An insert, whatever it returns, leaves a handle read-only or read-write. -/
theorem insert_readOnly {env : E.Env} {files files' : Dir E} {t t' : Tenant E}
    {r : Tenant.Record F} {res : Except TenantError Unit}
    (h : Tenant.insert env files t r = (files', t', res)) : t'.readOnly = t.readOnly := by
  rw [Tenant.insert_eq] at h
  rcases hstate : Tenant.insertState env files t r with ⟨files₁, t₁, res₁⟩
  have hkeep : t₁.readOnly = t.readOnly := by
    rcases Tenant.insertState_ends hstate with ⟨-, rfl, -⟩ | ⟨-, _, _, _, -, -, hcase⟩
    · rfl
    · rcases hcase with ⟨-, rfl⟩ | ⟨-, -, rfl⟩
      · rfl
      · rfl
  rw [hstate] at h
  cases res₁ with
  | error e =>
    simp only [Prod.mk.injEq] at h
    rw [← h.2.1]
    exact hkeep
  | ok u =>
    simp only [Prod.mk.injEq] at h
    rw [← h.2.1]
    exact hkeep

/-- What a recorded call tells of the session around it: an accepted insert is in the records of the
handle and in the history, a flush that was done has written the sidecar of the handle. -/
def Told (s s' : Session E) : Call F → Prop
  | .insert c => ∃ t t', s.handle = some t ∧ s'.handle = some t' ∧ t'.readOnly = t.readOnly ∧
      t'.inner.sidecar = (if c.accepted then
          { t.inner.sidecar with
            records :=
              Keyed.upsert RecordEntry.recordId c.record.entry t.inner.sidecar.records }
        else t.inner.sidecar) ∧
      s'.history = if c.accepted then .inserted c.record :: s.history else s.history
  | .flush done => ∃ t, s.handle = some t ∧ s'.handle = some t ∧
      s'.history = if done && !t.readOnly then .wrote t.inner.sidecar :: s.history else s.history

variable (J : SerdeJson) (dir : PathBuf) (envs : Nat → E.Env) (o : Nat → WriteOutcome)

/-- Each of the calls tells what a session makes of it, as operations after `n` calls. -/
def AllTold : Nat → Session E → List (Call F) → Prop
  | _, _, [] => True
  | n, s, call :: calls =>
    Told s (step J dir s (callOp envs o n call)) call ∧
      AllTold (n + 1) (step J dir s (callOp envs o n call)) calls

/-- The calls from `w` to `w'` are what a session on the files and the handle of `w` makes of them,
as operations. -/
def Traces (w w' : Shelf E × List (Call F)) : Prop :=
  ∃ new, w'.2 = w.2 ++ new ∧ w'.1.calls = w.1.calls + new.length ∧
    ∀ s : Session E, s.files = w.1.files → s.handle = some w.1.tenant →
      (Runs.run (step J dir) s (callOps envs o w.1.calls new)).files = w'.1.files ∧
        (Runs.run (step J dir) s (callOps envs o w.1.calls new)).handle = some w'.1.tenant ∧
        AllTold J dir envs o w.1.calls s new

variable {J dir envs o}

theorem allTold_append {n : Nat} {s : Session E} {xs ys : List (Call F)} :
    AllTold J dir envs o n s (xs ++ ys) ↔ AllTold J dir envs o n s xs ∧
      AllTold J dir envs o (n + xs.length) (Runs.run (step J dir) s (callOps envs o n xs)) ys := by
  induction xs generalizing n s with
  | nil => simp [AllTold, callOps]
  | cons x xs ih =>
    have hcount : n + (x :: xs).length = n + 1 + xs.length := by
      rw [List.length_cons]
      omega
    rw [List.cons_append, AllTold, AllTold, ih, hcount, and_assoc]
    rfl

theorem Traces.trans {w w₁ w₂ : Shelf E × List (Call F)} (h : Traces J dir envs o w w₁)
    (h' : Traces J dir envs o w₁ w₂) : Traces J dir envs o w w₂ := by
  obtain ⟨new, hcalls, hcount, hrun⟩ := h
  obtain ⟨new', hcalls', hcount', hrun'⟩ := h'
  refine ⟨new ++ new', ?_, ?_, ?_⟩
  · rw [hcalls', hcalls, List.append_assoc]
  · rw [hcount', hcount, List.length_append, Nat.add_assoc]
  · intro s hfiles hhandle
    obtain ⟨hfiles₁, hhandle₁, htold₁⟩ := hrun s hfiles hhandle
    obtain ⟨hfiles₂, hhandle₂, htold₂⟩ := hrun' _ hfiles₁ hhandle₁
    rw [callOps_append, Runs.run_append, ← hcount]
    refine ⟨hfiles₂, hhandle₂, allTold_append.2 ⟨htold₁, ?_⟩⟩
    rw [← hcount]
    exact htold₂

variable (J dir envs o) in
theorem traces_insert (w : Shelf E × List (Call F)) (id : RecordId) (v : List F)
    (shareable : Bool) (tags : List String) (payload : Bytes) :
    Traces J dir envs o w
      ((recorded (shelfWriter J envs o)).insert w id v shareable tags payload).1 := by
  rcases hins : Tenant.insert (envs w.1.calls) w.1.files w.1.tenant
    ⟨id, v, shareable, tags, payload⟩ with ⟨files, t, r⟩
  rw [recorded_insert]
  simp only [shelfWriter, hins]
  refine ⟨[.insert ⟨id, v, shareable, tags, payload, r.isOk⟩], rfl, rfl, ?_⟩
  intro s hfiles hhandle
  obtain ⟨hfiles', hhandle', hhistory⟩ := step_insert J dir hhandle (hfiles ▸ hins)
  refine ⟨hfiles', hhandle', ⟨w.1.tenant, t, hhandle, hhandle', insert_readOnly hins, ?_, hhistory⟩,
    trivial⟩
  have hsidecar := Tenant.insert_sidecar (envs w.1.calls) w.1.files w.1.tenant
    ⟨id, v, shareable, tags, payload⟩
  rw [hins] at hsidecar
  rw [hsidecar]
  cases r with
  | error e => rfl
  | ok u => rfl

variable (J dir envs o) in
theorem traces_flush (w : Shelf E × List (Call F)) :
    Traces J dir envs o w ((recorded (shelfWriter J envs o)).flush w).1 := by
  rcases hflush : Tenant.flush J (o w.1.calls) w.1.files w.1.tenant with ⟨files, r⟩
  have hw : ((recorded (shelfWriter J envs o)).flush w).1 =
      (⟨w.1.calls + 1, files, w.1.tenant⟩, w.2 ++ [.flush r.isOk]) := by
    simp only [recorded, shelfWriter, hflush]
  rw [hw]
  refine ⟨[.flush r.isOk], rfl, rfl, ?_⟩
  intro s hfiles hhandle
  obtain ⟨hfiles', hhandle', hhistory⟩ := step_flush J dir hhandle (hfiles ▸ hflush)
  exact ⟨hfiles', hhandle', ⟨w.1.tenant, hhandle, hhandle', hhistory⟩, trivial⟩

variable (J dir envs o) in
theorem keeps_traces : Keeps (recorded (shelfWriter J envs o)) (Traces J dir envs o) where
  refl w := ⟨[], by rw [List.append_nil], rfl, fun s hfiles hhandle =>
    ⟨hfiles, hhandle, trivial⟩⟩
  trans _ _ _ h h' := h.trans h'
  insert := traces_insert J dir envs o

/-- Every run, whatever it returns, is a run of the session with its calls as operations. -/
theorem ingestTree_session {Em : Embed M F} {opts : IngestOptions} {root : PathBuf}
    {read : PathBuf → Except IoError Text} {os : Os} {fuel : Nat} {m : M} {w : Shelf E}
    {run : TreeRun M (Shelf E × List (Call F)) TenantError}
    (h : ingestTree Em (recorded (shelfWriter J envs o)) opts root read os fuel m (w, []) =
      some run) : Traces J dir envs o (w, []) run.writer := by
  have hR := keeps_traces J dir envs o
  rw [ingestTree] at h
  split at h
  · cases h
    exact hR.refl _
  · obtain ⟨files, -, rfl⟩ := Option.map_eq_some_iff.1 h
    rcases hloop : ingestFiles Em (recorded (shelfWriter J envs o)) opts root read
      ⟨m, (w, []), .startingAt opts.startId⟩ files with ⟨q, seen, e | ⟨⟩⟩
    · rw [ingestCollected, hloop]
      exact ingestFiles_keeps hR hloop
    · have hflush := traces_flush J dir envs o q.writer
      rw [ingestCollected_writer hloop]
      exact (ingestFiles_keeps hR hloop).trans hflush

end Simulation

/-! ## A run that returns `Ok` -/

section Done

variable {W Err : Type} {Em : Embed M F} {T : TenantWrite W F Err} {opts : IngestOptions}
  {root : PathBuf} {read : PathBuf → Except IoError Text}

/-- A loop over chunks that ends well embedded them in order and made their inserts. -/
theorem ingestChunks_done {rel : String} {p q : Pipeline M W} {cs : List Chunk}
    (h : ingestChunks Em T opts rel p cs = (q, .ok ())) :
    ∃ vs, embedAll Em p.embedder (cs.map Chunk.text) = some (q.embedder, vs) ∧
      insertAll T p.writer (callsFrom opts p.stats.nextId ((cs.map fun c => (rel, c)).zip vs)) =
        some q.writer ∧ q.stats = cs.foldl IngestStats.addChunk p.stats := by
  induction cs generalizing p with
  | nil =>
    simp only [ingestChunks, Prod.mk.injEq, and_true] at h
    subst h
    exact ⟨[], rfl, rfl, rfl⟩
  | cons c cs ih =>
    rcases ingestChunks_cons Em T opts rel h with ⟨e, -, he⟩ | ⟨p₁, hc, hrest⟩
    · cases he
    · rcases ingestChunk_ends Em T opts rel hc with ⟨_, _, -, -, hr⟩ | ⟨_, _, _, _, -, -, -, hr⟩ |
        ⟨m, v, w, hpassage, hinsert, rfl, -⟩
      · cases hr
      · cases hr
      · obtain ⟨vs, hembed, hinserts, hstats⟩ := ih hrest
        refine ⟨v :: vs, ?_, ?_, hstats⟩
        · rw [List.map_cons, embedAll, hpassage]
          dsimp only
          rw [hembed]
          rfl
        · rw [List.map_cons, List.zip_cons_cons, callsFrom, insertAll]
          simp only [chunkCall, hinsert]
          exact hinserts

theorem embedAll_append_some {m m₁ m' : M} {xs ys : List Text} {us ws : List (List F)}
    (hx : embedAll Em m xs = some (m₁, us)) (hy : embedAll Em m₁ ys = some (m', ws)) :
    embedAll Em m (xs ++ ys) = some (m', us ++ ws) := by
  induction xs generalizing m us with
  | nil =>
    simp only [embedAll, Option.some.injEq, Prod.mk.injEq] at hx
    obtain ⟨rfl, rfl⟩ := hx
    exact hy
  | cons x xs ih =>
    rw [embedAll] at hx
    split at hx
    · simp at hx
    · rename_i m₂ v hv
      obtain ⟨⟨m₃, us'⟩, hrest, heq⟩ := Option.map_eq_some_iff.1 hx
      cases heq
      rw [List.cons_append, embedAll, hv]
      dsimp only
      rw [ih hrest]
      rfl

theorem insertAll_append_some {w w₁ w' : W} {xs ys : List (InsertCall F)}
    (hx : insertAll T w xs = some w₁) (hy : insertAll T w₁ ys = some w') :
    insertAll T w (xs ++ ys) = some w' := by
  induction xs generalizing w with
  | nil =>
    simp only [insertAll, Option.some.injEq] at hx
    rw [hx]
    exact hy
  | cons x xs ih =>
    rw [insertAll] at hx
    split at hx
    · simp at hx
    · rename_i w₂ hw
      rw [List.cons_append, insertAll, hw]
      exact ih hx

/-- A loop over files that ends well made the inserts of the plan, with the vectors of the
embedder. -/
theorem ingestFiles_done {p q : Pipeline M W} {paths : List PathBuf} {seen : List IngestStats}
    (h : ingestFiles Em T opts root read p paths = (q, seen, .ok ())) :
    ∃ files : List (PathBuf × Text), files.map Prod.fst = paths ∧
      (∀ f ∈ files, read f.1 = .ok f.2) ∧ q.stats = statsFrom p.stats files ∧
      ∃ vs, embedAll Em p.embedder ((plan root files).map fun c => c.2.text) =
          some (q.embedder, vs) ∧
        insertAll T p.writer (callsFrom opts p.stats.nextId ((plan root files).zip vs)) =
          some q.writer := by
  induction paths generalizing p seen with
  | nil =>
    simp only [ingestFiles, Prod.mk.injEq, and_true] at h
    rw [← h.1]
    exact ⟨[], rfl, by simp, rfl, [], rfl, rfl⟩
  | cons path paths ih =>
    obtain ⟨p₁, seen₁, hfile, hrest⟩ := ingestFiles_cons_ok h
    obtain ⟨text, htext, hchunks⟩ := ingestFile_ok hfile
    obtain ⟨us, hembed, hinserts, hstats⟩ := ingestChunks_done hchunks
    obtain ⟨files, rfl, hread, hstats', ws, hembed', hinserts'⟩ := ih hrest
    have hlen : us.length = (fileChunks root path text).length := by
      rw [embedAll_length hembed, List.length_map, fileChunks, List.length_map]
    have htexts : (fileChunks root path text).map (fun c => c.2.text) =
        (chunksOf path text).map Chunk.text := by
      rw [fileChunks, List.map_map]
      rfl
    -- the counter stands behind the chunks of the first file
    have hnext : p₁.stats.addFile.nextId =
        p.stats.nextId + UInt64.ofNat ((fileChunks root path text).zip us).length := by
      rw [hstats, foldl_addChunk, List.length_zip, hlen, Nat.min_self, fileChunks, List.length_map]
      rfl
    refine ⟨(path, text) :: files, rfl, ?_, ?_, us ++ ws, ?_, ?_⟩
    · intro f hf
      rcases List.mem_cons.1 hf with rfl | hf
      · exact htext
      · exact hread f hf
    · rw [hstats', hstats]
      rfl
    · rw [plan_cons, List.map_append, htexts]
      exact embedAll_append_some hembed hembed'
    · rw [plan_cons, List.zip_append hlen.symm, callsFrom_append, ← hnext]
      exact insertAll_append_some hinserts hinserts'

/-- A run that returns `Ok` made the inserts of the plan over the collected files and flushed. -/
theorem ingestTree_planned {os : Os} {fuel : Nat} {m : M} {w : W} {run : TreeRun M W Err}
    {stats : IngestStats} (h : ingestTree Em T opts root read os fuel m w = some run)
    (hdone : run.result = .ok stats) :
    ∃ files : List (PathBuf × Text), collectFiles os opts fuel root = some (files.map Prod.fst) ∧
      (∀ f ∈ files, read f.1 = .ok f.2) ∧ stats = planStats opts root files ∧
      ∃ m' vs w', embedAll Em m ((plan root files).map fun c => c.2.text) = some (m', vs) ∧
        insertAll T w (planCalls opts root files vs) = some w' ∧
        T.flush w' = (run.writer, .ok ()) := by
  obtain ⟨paths, hpaths, hrun⟩ := ingestTree_collected h (by simp [hdone])
  obtain ⟨paths', q, hpaths', hloop, hflush⟩ := ingestTree_done h hdone
  obtain rfl : paths' = paths := Option.some.inj (hpaths'.symm.trans hpaths)
  obtain ⟨files, rfl, hread, hstats, vs, hembed, hinserts⟩ := ingestFiles_done hloop
  have hresult : run.result = .ok q.stats := by
    rw [← hrun, ingestCollected, hloop]
    dsimp only
    rw [hflush]
  rw [hresult, Except.ok.injEq] at hdone
  refine ⟨files, hpaths, hread, ?_, q.embedder, vs, q.writer, hembed, ?_, hflush⟩
  · rw [← hdone, hstats, statsFrom_startingAt]
  · rw [← planCalls_eq]
    exact hinserts

end Done

/-! ## The inserts in the session -/

section Inserts

variable {J : SerdeJson} {dir : PathBuf} {envs : Nat → E.Env} {o : Nat → WriteOutcome}

/-- An insert that succeeds upserts its entry, through a read-write handle that stays one. -/
theorem insert_done {env : E.Env} {files files' : Dir E} {t t' : Tenant E} {r : Tenant.Record F}
    (h : Tenant.insert env files t r = (files', t', .ok ())) :
    t.readOnly = false ∧ t'.readOnly = false ∧ t'.inner.sidecar = { t.inner.sidecar with
      records := Keyed.upsert RecordEntry.recordId r.entry t.inner.sidecar.records } := by
  rw [Tenant.insert_eq] at h
  rcases hstate : Tenant.insertState env files t r with ⟨files₁, t₁, res⟩
  rw [hstate] at h
  cases res with
  | error e => simp at h
  | ok u =>
    simp only [Prod.mk.injEq, and_true] at h
    rcases Tenant.insertState_ends hstate with ⟨-, -, e, he⟩ | ⟨hro, _, index, _, _, -, hcase⟩
    · cases he
    · rcases hcase with ⟨⟨e, -, he⟩, -⟩ | ⟨-, -, rfl⟩
      · cases he
      · rw [← h.2]
        exact ⟨hro, hro, rfl⟩

variable (dir) in
/-- What accepted inserts leave: the records upserted in order, and a history with all of them. -/
theorem insertAll_session {w w' : Shelf E} {calls : List (InsertCall F)}
    (h : insertAll (shelfWriter J envs o) w calls = some w') :
    w'.tenant.readOnly = w.tenant.readOnly ∧
      w'.tenant.inner.sidecar = { w.tenant.inner.sidecar with
        records := Keyed.upsertAll RecordEntry.recordId w.tenant.inner.sidecar.records
          (calls.map fun c => c.record.entry) } ∧
      (w.tenant.readOnly = true → calls = []) ∧
      ∀ s : Session E, s.files = w.files → s.handle = some w.tenant →
        Runs.run (step J dir) s (callOps envs o w.calls (calls.map .insert)) =
          ⟨w'.files, some w'.tenant,
            (calls.map fun c => Mark.inserted c.record).reverse ++ s.history⟩ := by
  induction calls generalizing w with
  | nil =>
    simp only [insertAll, Option.some.injEq] at h
    subst h
    refine ⟨rfl, rfl, fun _ => rfl, ?_⟩
    rintro ⟨files, handle, history⟩ rfl rfl
    rfl
  | cons c calls ih =>
    rw [insertAll] at h
    split at h
    · simp at h
    · rename_i w₁ hw
      rcases hins : Tenant.insert (envs w.calls) w.files w.tenant c.record with ⟨files, t, res⟩
      have hwriter : ((⟨w.calls + 1, files, t⟩, res) : Shelf E × Except TenantError Unit) =
          (w₁, .ok ()) := by
        rw [← hw]
        have hrecord : Tenant.insert (envs w.calls) w.files w.tenant
            ⟨c.recordId, c.embedding, c.shareable, c.tags, c.payload⟩ = (files, t, res) := hins
        simp only [shelfWriter, hrecord]
      cases hwriter
      obtain ⟨hro, hro', hsidecar⟩ := insert_done hins
      obtain ⟨hkeep, hrecords, -, hrun⟩ := ih h
      refine ⟨hkeep.trans (hro'.trans hro.symm), ?_, ?_, ?_⟩
      · rw [hrecords, hsidecar]
        rfl
      · intro hview
        rw [hro] at hview
        cases hview
      · intro s hfiles hhandle
        obtain ⟨hfiles₁, hhandle₁, hhistory⟩ := step_insert J dir hhandle
          (hfiles ▸ hins)
        have hrest := hrun _ hfiles₁ hhandle₁
        have hcons : callOps envs o w.calls ((c :: calls).map .insert) =
            .insert (envs w.calls) c.record ::
              callOps envs o (w.calls + 1) (calls.map .insert) := rfl
        rw [hcons, Runs.run_cons, hrest, hhistory, List.map_cons, List.reverse_cons,
          List.append_assoc]
        rfl

/-- A flush of the writer is one of the tenant. -/
theorem shelf_flush {w w' : Shelf E} {r : Except TenantError Unit}
    (h : (shelfWriter J envs o).flush w = (w', r)) :
    Tenant.flush J (o w.calls) w.files w.tenant = (w'.files, r) ∧ w'.tenant = w.tenant := by
  rcases hflush : Tenant.flush J (o w.calls) w.files w.tenant with ⟨files, r'⟩
  simp only [shelfWriter, hflush, Prod.mk.injEq] at h
  obtain ⟨rfl, rfl⟩ := h
  exact ⟨rfl, rfl⟩

/-- The latest vectors after inserts replay theirs. -/
theorem latest_inserted_all (calls : List (InsertCall F)) (h : List (Mark F)) :
    latest ((calls.map fun c => Mark.inserted c.record).reverse ++ h) =
      replay (latest h) (calls.map fun c => (c.key, some c.embedding)) := by
  induction calls generalizing h with
  | nil => rfl
  | cons c calls ih =>
    rw [List.map_cons, List.reverse_cons, List.append_assoc, List.singleton_append, ih,
      latest_inserted]
    rfl

end Inserts

end SkegRigging.Ingest
