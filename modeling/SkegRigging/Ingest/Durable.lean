import SkegRigging.Ingest.TenantWriter

/-!
# Ingests survive what the process does

A run that returns `Ok` is durable: a later open of the directory finds the records from before the
run with those of the plan upserted over them in order, and the vectors that the embedder gave
(`ingestTree_durable`).

A run may be killed between any two calls of its writer, or while the flush writes. Before its flush
it has written vectors only, under ids that a complete run over the same files writes again, so an
open and a complete run after it leave the store of an undisturbed run (`ingestTree_resumed`).
-/

set_option autoImplicit false

namespace SkegRigging.Ingest

open Session History Replay

variable {M F S : Type} {E : DiskVamanaIndex F S}

/-! ## What a later open finds -/

section Reopen

variable {Md : E.Model} {J : SerdeJson} {dir : PathBuf} {files files' : Dir E} {h : List (Mark F)}
  {env : OpenEnv E} {tenantId : TenantId} {embeddingDim : UInt32} {t : Tenant E}

/-- An open of files with the history `h` finds the sidecar last written and the latest vectors. -/
theorem reopen_finds (hd : Disk Md J files h) {w : MetadataSidecar} (hw : written h = some w)
    (hopen : Tenant.open J env dir files tenantId embeddingDim = (files', .ok t)) :
    t.inner.sidecar = w ∧ Md.vectors t.inner.index = latest h := by
  have hopened := Tenant.open_ok Md hopen
  refine ⟨?_, hopened.vectors.trans hd.stored⟩
  cases hm : files.metaJson with
  | none =>
    have hnone := hd.unwritten hm
    rw [hw] at hnone
    cases hnone
  | some bytes =>
    have hparsed := hd.persisted bytes _ hm (hopened.loaded bytes hm).1
    rw [hw] at hparsed
    exact (Option.some.inj hparsed).symm

theorem runs_append (J : SerdeJson) (dir : PathBuf) (ops more : List (Op E)) :
    runs J dir (ops ++ more) = Runs.run (step J dir) (runs J dir ops) more :=
  Runs.run_append _ _ _ _

/-- The session after the handle is lost and the directory is opened again. -/
theorem step_reopen {s : Session E}
    (hopen : Tenant.open J env dir s.files tenantId embeddingDim = (files', .ok t)) :
    (Runs.run (step J dir) s [.close, .open env tenantId embeddingDim]).files = files' ∧
      (Runs.run (step J dir) s [.close, .open env tenantId embeddingDim]).handle = some t := by
  have hclosed : Runs.run (step J dir) s [.close, .open env tenantId embeddingDim] =
      opened { s with handle := none } (Tenant.open J env dir s.files tenantId embeddingDim) := rfl
  rw [hclosed, hopen]
  exact ⟨rfl, rfl⟩

end Reopen

/-! ## A run on the handle of a session -/

/-- The entries that the inserts write to the sidecar. -/
def entriesOf (calls : List (InsertCall F)) : List RecordEntry := calls.map fun c => c.record.entry

/-- The vectors that the inserts write to the index. -/
def vectorsOf (calls : List (InsertCall F)) : List (UInt64 × Option (List F)) :=
  calls.map fun c => (c.key, some c.embedding)

theorem map_recordId_entriesOf (calls : List (InsertCall F)) :
    (entriesOf calls).map RecordEntry.recordId = calls.map InsertCall.key := by
  rw [entriesOf, List.map_map]
  rfl

theorem map_fst_vectorsOf (calls : List (InsertCall F)) :
    (vectorsOf calls).map Prod.fst = calls.map InsertCall.key := by
  rw [vectorsOf, List.map_map]
  rfl

section Done

variable {Md : E.Model} {J : SerdeJson} {dir : PathBuf} {envs : Nat → E.Env}
  {o : Nat → WriteOutcome} {t : Tenant E} {w w' : Shelf E} {calls : List (InsertCall F)}

/-- What a completed run has done to a session: the sidecar is written if the handle may write. -/
structure Ran (s s' : Session E) (t t' : Tenant E)
    (calls : List (InsertCall F)) : Prop where
  handle : s'.handle = some t'
  records : t'.inner.sidecar = { t.inner.sidecar with
    records := Keyed.upsertAll RecordEntry.recordId t.inner.sidecar.records (entriesOf calls) }
  latest : latest s'.history = replay (latest s.history) (vectorsOf calls)
  written : t.readOnly = false → written s'.history = some t'.inner.sidecar
  view : t.readOnly = true → calls = [] ∧ History.written s'.history = History.written s.history

variable (dir) in
/-- The inserts and the flush of a run on the handle of a session. -/
theorem ran_of_planned {s : Session E} {files : Dir E} {last : WriteOutcome}
    (hfiles : s.files = w.files)
    (ht : s.handle = some w.tenant)
    (hinsert : insertAll (shelfWriter J envs o) w calls = some w')
    (hflush : Tenant.flush J last w'.files w'.tenant = (files, .ok ())) :
    ∃ ops : List (Op E), (Runs.run (step J dir) s ops).files = files ∧
      Ran s (Runs.run (step J dir) s ops) w.tenant w'.tenant calls := by
  obtain ⟨hro, hsidecar, hview, hrun⟩ := insertAll_session dir hinsert
  have hinserted := hrun s hfiles ht
  refine ⟨callOps envs o w.calls (calls.map .insert) ++ [.flush last], ?_⟩
  have hlast : Runs.run (step J dir) s
      (callOps envs o w.calls (calls.map .insert) ++ [.flush last]) =
        step J dir ⟨w'.files, some w'.tenant,
          (calls.map fun c => Mark.inserted c.record).reverse ++ s.history⟩ (.flush last) := by
    rw [Runs.run_append, hinserted]
    rfl
  rw [hlast]
  obtain ⟨hfiles', hhandle', hhistory⟩ := step_flush J dir
    (s := ⟨w'.files, some w'.tenant, (calls.map fun c => Mark.inserted c.record).reverse ++
      s.history⟩) rfl hflush
  refine ⟨hfiles', hhandle', hsidecar, ?_, ?_, ?_⟩
  · rw [hhistory, vectorsOf, ← latest_inserted_all]
    split
    · exact latest_wrote _ _
    · rfl
  · intro hrw
    rw [hhistory, hro, hrw]
    rfl
  · intro hro'
    refine ⟨hview hro', ?_⟩
    rw [hhistory, hro, hro', hview hro']
    rfl

/-- After a completed run the session has the sidecar of the handle as the one last written. -/
theorem Ran.saved {s s' : Session E} {t t' : Tenant E} (h : Ran s s' t t' calls)
    (hs : Inv Md J s) (ht : s.handle = some t) :
    History.written s'.history = some t'.inner.sidecar := by
  cases hro : t.readOnly with
  | false => exact h.written hro
  | true =>
    obtain ⟨hnone, hwritten⟩ := h.view hro
    obtain ⟨bytes, hbytes, hparse⟩ := (hs.held t ht).view hro
    rw [hwritten, hs.disk.persisted bytes _ hbytes hparse, h.records, hnone]
    rfl

end Done

section Durable

variable {Em : Embed M F} {opts : IngestOptions} {root : PathBuf}
  {read : PathBuf → Except IoError Text} {os : Os} {fuel : Nat} {m : M} {envs : Nat → E.Env}
  {o : Nat → WriteOutcome} {run : TreeRun M (Shelf E) TenantError} {stats : IngestStats}

/-- A run over the open handle of a session that returns `Ok` ends in a session. -/
theorem ran_of_ingest {J : SerdeJson} {dir : PathBuf} {ops : List (Op E)} {t : Tenant E}
    {dirFiles : Dir E} (ht : (runs J dir ops).handle = some t)
    (hdir : (runs J dir ops).files = dirFiles)
    (hrun : ingestTree Em (shelfWriter J envs o) opts root read os fuel m ⟨0, dirFiles, t⟩ =
      some run) (hdone : run.result = .ok stats) :
    ∃ (files : List (PathBuf × Text)) (m' : M) (vs : List (List F)) (more : List (Op E)),
      collectFiles os opts fuel root = some (files.map Prod.fst) ∧
        (∀ f ∈ files, read f.1 = .ok f.2) ∧ stats = planStats opts root files ∧
        embedAll Em m ((plan root files).map fun c => c.2.text) = some (m', vs) ∧
        (runs J dir (ops ++ more)).files = run.writer.files ∧
        Ran (runs J dir ops) (runs J dir (ops ++ more)) t run.writer.tenant
          (planCalls opts root files vs) := by
  obtain ⟨files, hpaths, hread, hstats, m', vs, w', hembed, hinsert, hflush⟩ :=
    ingestTree_planned hrun hdone
  obtain ⟨hflushed, htenant⟩ := shelf_flush hflush
  obtain ⟨more, hfiles, hran⟩ := ran_of_planned dir hdir ht hinsert hflushed
  refine ⟨files, m', vs, more, hpaths, hread, hstats, hembed, ?_, ?_⟩
  · rw [runs_append]
    exact hfiles
  · rw [runs_append, htenant]
    exact hran

/-- A run over the open handle of any session that returns `Ok`, and then any loss of the handle:
a later open finds the records from before the run with those of the plan upserted in order, and
under each of their ids the vector of the embedder. -/
theorem ingestTree_durable (Md : E.Model) {J : SerdeJson} (hJ : J.Laws) (dir : PathBuf)
    (ops : List (Op E)) {t : Tenant E} (ht : (runs J dir ops).handle = some t)
    (hrun : ingestTree Em (shelfWriter J envs o) opts root read os fuel m
      ⟨0, (runs J dir ops).files, t⟩ = some run) (hdone : run.result = .ok stats) :
    ∃ (files : List (PathBuf × Text)) (m' : M) (vs : List (List F)),
      collectFiles os opts fuel root = some (files.map Prod.fst) ∧
        (∀ f ∈ files, read f.1 = .ok f.2) ∧ stats = planStats opts root files ∧
        embedAll Em m ((plan root files).map fun c => c.2.text) = some (m', vs) ∧
        ∀ env tenantId embeddingDim files' t', Tenant.open J env dir run.writer.files tenantId
            embeddingDim = (files', .ok t') →
          t'.inner.sidecar.records = Keyed.upsertAll RecordEntry.recordId
              t.inner.sidecar.records (entriesOf (planCalls opts root files vs)) ∧
            Md.vectors t'.inner.index = replay (Md.vectors t.inner.index)
              (vectorsOf (planCalls opts root files vs)) := by
  have hs : Inv Md J (runs J dir ops) := runs_inv hJ dir ops
  obtain ⟨files, m', vs, more, hpaths, hread, hstats, hembed, hfiles, hran⟩ :=
    ran_of_ingest ht rfl hrun hdone
  refine ⟨files, m', vs, hpaths, hread, hstats, hembed, ?_⟩
  intro env tenantId embeddingDim files' t' hopen
  have hdisk := (runs_inv (M := Md) hJ dir (ops ++ more)).disk
  rw [hfiles] at hdisk
  obtain ⟨hsidecar, hvectors⟩ := reopen_finds hdisk (hran.saved hs ht) hopen
  refine ⟨?_, ?_⟩
  · rw [hsidecar, hran.records]
  · rw [hvectors, hran.latest, hs.vectors Md J ht]

end Durable

/-! ## What a killed run has written -/

section Killed

variable {Em : Embed M F} {opts : IngestOptions} {root : PathBuf} {vec : Text → List F}
  {read : PathBuf → Except IoError Text} {os : Os} {fuel : Nat} {files : List (PathBuf × Text)}

theorem embedAll_textOnly (hE : TextOnly Em vec) {m m' : M} {texts : List Text}
    {vs : List (List F)} (h : embedAll Em m texts = some (m', vs)) : vs = texts.map vec := by
  induction texts generalizing m vs with
  | nil =>
    simp only [embedAll, Option.some.injEq, Prod.mk.injEq] at h
    exact h.2.symm
  | cons text texts ih =>
    rw [embedAll] at h
    split at h
    · simp at h
    · rename_i m₁ v hv
      obtain ⟨⟨m₂, us⟩, hrest, heq⟩ := Option.map_eq_some_iff.1 h
      cases heq
      rw [List.map_cons, hE _ _ _ _ hv, ih hrest]

/-- The inserts of the run over the files, with the vectors that the embedder gives their texts. -/
def planned (opts : IngestOptions) (root : PathBuf) (vec : Text → List F)
    (files : List (PathBuf × Text)) : List (InsertCall F) :=
  planCalls opts root files ((plan root files).map fun c => vec c.2.text)

theorem planned_eq (files : List (PathBuf × Text)) :
    callsFrom opts opts.startId ((plan root files).map fun c => (c, vec c.2.text)) =
      planned opts root vec files := by
  rw [planned, ← planCalls_eq, List.map_prod_left_eq_zip]

section Recorded

variable {W Err : Type} {T : TenantWrite W F Err}

/-- The ids of the inserts that were called so far. -/
def calledIds (w : W × List (Call F)) (id : RecordId) : Option Unit :=
  if id ∈ (insertions w.2).map InsertCall.recordId then some () else none

/-- The ids called follow the contract of a store, whatever the writer does. -/
theorem calledIds_contract (T : TenantWrite W F Err) :
    StoreContract (recorded T) (fun _ _ _ _ => ()) calledIds := by
  have hins : ∀ w id v shareable tags payload w' (r : Except Err Unit),
      (recorded T).insert w id v shareable tags payload = (w', r) →
        calledIds w' = Function.update (calledIds w) id (some ()) := by
    intro w id v shareable tags payload w' r h
    obtain ⟨-, hcalls⟩ := recorded_insert_ends h
    funext k
    by_cases hk : k = id
    · rw [hk, Function.update_self]
      simp [calledIds, hcalls]
    · rw [Function.update_of_ne hk]
      simp [calledIds, hcalls, hk]
  refine ⟨?_, ?_, ?_⟩
  · intro w id v shareable tags payload w' h
    exact hins w id v shareable tags payload w' _ h
  · intro w id v shareable tags payload w' e h k hk
    rw [hins w id v shareable tags payload w' _ h, Function.update_of_ne hk]
  · intro w w' h
    have hcalls : insertions w'.2 = insertions w.2 := by
      have hflush : insertions ((recorded T).flush w).1.2 = insertions w.2 :=
        insertions_recorded_flush w
      rwa [h] at hflush
    funext k
    rw [calledIds, hcalls, calledIds]

/-- Every insert that a loop calls has the id of a chunk of the plan. -/
theorem ingestFiles_called (hE : TextOnly Em vec)
    (hread : ∀ f ∈ files, ∀ text, read f.1 = .ok text → text = f.2)
    {m : M} {w : W} {q : Pipeline M (W × List (Call F))} {seen : List IngestStats}
    {r : Except (IngestError Err) Unit}
    (h : ingestFiles Em (recorded T) opts root read ⟨m, (w, []), .startingAt opts.startId⟩
      (files.map Prod.fst) = (q, seen, r)) :
    ∀ c ∈ insertions q.writer.2, c.key ∈ (planned opts root vec files).map InsertCall.key := by
  intro c hc
  have hwrote := ingestFiles_wrote (calledIds_contract T) hE hread h
  have hcalled : calledIds q.writer c.recordId = some () := by
    rw [calledIds, if_pos (List.mem_map_of_mem hc)]
  by_contra hout
  have hunwritten : writesTo c.recordId (chunksLog opts vec
      (fun (_ : List F) (_ : Bool) (_ : List String) (_ : Bytes) => ()) opts.startId
        (plan root files)) = [] := by
    rw [chunksLog, planned_eq, writesTo, List.filter_eq_nil_iff]
    intro write hwrite
    obtain ⟨c', hc', rfl⟩ := List.mem_map.1 hwrite
    have hne : c'.recordId ≠ c.recordId := by
      intro heq
      apply hout
      have hkey : c'.key = c.key := congrArg RecordId.val heq
      rw [← hkey]
      exact List.mem_map_of_mem hc'
    exact fun hwrite' => hne (of_decide_eq_true hwrite')
  -- an id that the plan does not write is not called
  have hnone : calledIds q.writer c.recordId = none := hwrote.frame _ hunwritten
  rw [hcalled] at hnone
  cases hnone

/-- The loops only add inserts to the calls. -/
theorem keeps_inserts (T : TenantWrite W F Err) : Keeps (recorded T)
    (fun w w' => ∃ new : List (InsertCall F), w'.2 = w.2 ++ new.map .insert) where
  refl w := ⟨[], by simp⟩
  trans := by
    rintro w w₁ w₂ ⟨xs, hxs⟩ ⟨ys, hys⟩
    exact ⟨xs ++ ys, by rw [hys, hxs, List.map_append, List.append_assoc]⟩
  insert w id v shareable tags payload := ⟨[_], rfl⟩

/-- Accepted inserts through a recorded writer are those of the writer. -/
theorem insertAll_recorded {w w' : W × List (Call F)} {calls : List (InsertCall F)}
    (haccepted : ∀ c ∈ calls, c.accepted = true)
    (h : insertAll (recorded T) w calls = some w') :
    insertAll T w.1 calls = some w'.1 ∧ w'.2 = w.2 ++ calls.map .insert := by
  induction calls generalizing w with
  | nil =>
    simp only [insertAll, Option.some.injEq] at h
    subst h
    exact ⟨rfl, by simp⟩
  | cons c calls ih =>
    rw [insertAll] at h
    split at h
    · simp at h
    · rename_i w₁ hw
      obtain ⟨hins, hcalls⟩ := recorded_insert_ends hw
      obtain ⟨hrest, hall⟩ := ih (fun d hd => haccepted d (List.mem_cons_of_mem _ hd)) h
      refine ⟨?_, ?_⟩
      · rw [insertAll, hins]
        exact hrest
      · have hc : (⟨c.recordId, c.embedding, c.shareable, c.tags, c.payload,
            (Except.ok () : Except Err Unit).isOk⟩ : InsertCall F) = c := by
          rw [InsertCall.mk.injEq]
          exact ⟨rfl, rfl, rfl, rfl, rfl, (haccepted c List.mem_cons_self).symm⟩
        rw [hall, hcalls, hc, List.map_cons, List.append_assoc]
        rfl

end Recorded

/-- Paths with one text each, read twice. -/
theorem files_eq {files' : List (PathBuf × Text)}
    (hpaths : files'.map Prod.fst = files.map Prod.fst)
    (hread' : ∀ f ∈ files', read f.1 = .ok f.2)
    (hread : ∀ f ∈ files, ∀ text, read f.1 = .ok text → text = f.2) : files' = files := by
  induction files' generalizing files with
  | nil => exact (List.map_eq_nil_iff.1 hpaths.symm).symm
  | cons f' files' ih =>
    cases files with
    | nil => simp at hpaths
    | cons f files =>
      rw [List.map_cons, List.map_cons, List.cons.injEq] at hpaths
      have htext : f'.2 = f.2 := by
        apply hread f List.mem_cons_self
        rw [← hpaths.1]
        exact hread' f' List.mem_cons_self
      rw [Prod.ext hpaths.1 htext, ih hpaths.2 (fun g hg => hread' g (List.mem_cons_of_mem _ hg))
        fun g hg => hread g (List.mem_cons_of_mem _ hg)]

/-- The calls of a run over the files: inserts under ids of the plan, or all of the plan and a
flush. -/
theorem ingestTree_calls {W Err : Type} {T : TenantWrite W F Err} (hE : TextOnly Em vec)
    (hpaths : collectFiles os opts fuel root = some (files.map Prod.fst))
    (hread : ∀ f ∈ files, ∀ text, read f.1 = .ok text → text = f.2) {m : M} {w : W}
    {run : TreeRun M (W × List (Call F)) Err}
    (h : ingestTree Em (recorded T) opts root read os fuel m (w, []) = some run) :
    (∃ calls : List (InsertCall F), run.writer.2 = calls.map .insert ∧
        ∀ c ∈ calls, c.key ∈ (planned opts root vec files).map InsertCall.key) ∨
      ∃ w' done, insertAll T w (planned opts root vec files) = some w' ∧
        run.writer.2 = (planned opts root vec files).map .insert ++ [.flush done] := by
  rw [ingestTree] at h
  split at h
  · cases h
    exact Or.inl ⟨[], rfl, by simp⟩
  · rw [hpaths, Option.map_some, Option.some.injEq] at h
    subst h
    rcases hloop : ingestFiles Em (recorded T) opts root read ⟨m, (w, []), .startingAt opts.startId⟩
      (files.map Prod.fst) with ⟨q, seen, e | ⟨⟩⟩
    · -- the run stopped at a file
      obtain ⟨calls, hcalls⟩ := ingestFiles_keeps (keeps_inserts T) hloop
      have hinserts : insertions q.writer.2 = calls := by
        rw [hcalls, List.nil_append, insertions_map_insert]
      have hcalled := ingestFiles_called hE hread hloop
      rw [hinserts] at hcalled
      refine Or.inl ⟨calls, ?_, hcalled⟩
      rw [ingestCollected, hloop]
      exact hcalls
    · -- the loop ended well, so it made the plan
      obtain ⟨files', hpaths', hread', -, vs, hembed, hinsert⟩ := ingestFiles_done hloop
      obtain rfl : files' = files := files_eq hpaths' hread' hread
      have hplan : callsFrom opts opts.startId ((plan root files').zip vs) =
          planned opts root vec files' := by
        rw [planned, ← planCalls_eq, embedAll_textOnly hE hembed, List.map_map]
        rfl
      have hinsert' : insertAll (recorded T) (w, []) (planned opts root vec files') =
          some q.writer := by
        rw [← hplan]
        exact hinsert
      have haccepted : ∀ c ∈ planned opts root vec files', c.accepted = true := by
        intro c hc
        rw [planned, planCalls, List.mem_mapIdx] at hc
        obtain ⟨k, hk, rfl⟩ := hc
        rfl
      obtain ⟨hmade, hcalls⟩ := insertAll_recorded haccepted hinsert'
      refine Or.inr ⟨q.writer.1, (T.flush q.writer.1).2.isOk, hmade, ?_⟩
      rw [List.nil_append] at hcalls
      rw [ingestCollected_writer hloop, ← hcalls]
      rfl

variable {J : SerdeJson} {dir : PathBuf} {envs : Nat → E.Env} {o : Nat → WriteOutcome}

variable (J dir envs o) in
/-- Inserts, whatever they return, leave the sidecar last written and the vectors of other ids. -/
theorem run_inserts (calls : List (InsertCall F)) (n : Nat) (s : Session E) :
    written (Runs.run (step J dir) s (callOps envs o n (calls.map .insert))).history =
        written s.history ∧
      ∀ id, id ∉ calls.map InsertCall.key →
        latest (Runs.run (step J dir) s (callOps envs o n (calls.map .insert))).history id =
          latest s.history id := by
  induction calls generalizing n s with
  | nil => exact ⟨rfl, fun _ _ => rfl⟩
  | cons c calls ih =>
    have hone : (step J dir s (.insert (envs n) c.record)).history = s.history ∨
        (step J dir s (.insert (envs n) c.record)).history = .inserted c.record :: s.history := by
      cases ht : s.handle with
      | none => exact Or.inl (by simp only [step, ht])
      | some t =>
        rcases hins : t.insert (envs n) s.files c.record with ⟨files', t', e | ⟨⟩⟩
        · exact Or.inl (step_insert J dir ht hins).2.2
        · exact Or.inr (step_insert J dir ht hins).2.2
    obtain ⟨hwritten, hlatest⟩ := ih (n + 1) (step J dir s (.insert (envs n) c.record))
    have hcons : callOps envs o n ((c :: calls).map .insert) =
        .insert (envs n) c.record :: callOps envs o (n + 1) (calls.map .insert) := rfl
    rw [hcons, Runs.run_cons]
    refine ⟨hwritten.trans ?_, ?_⟩
    · rcases hone with hsame | hadded
      · rw [hsame]
      · rw [hadded, written_inserted]
    · intro id hid
      rw [List.map_cons, List.mem_cons, not_or] at hid
      rw [hlatest id hid.2]
      rcases hone with hsame | hadded
      · rw [hsame]
      · rw [hadded, latest_inserted, Function.update_of_ne]
        exact hid.1

/-- What the calls of a run that was killed leave in the history, beside the ids of `rows`: the
sidecar as it was, or with all the entries of `rows`. -/
structure Disturbed (h h' : List (Mark F)) (w : MetadataSidecar) (rows : List (InsertCall F)) :
    Prop where
  latest : ∀ id, id ∉ rows.map InsertCall.key → History.latest h' id = History.latest h id
  written : History.written h' = History.written h ∨ History.written h' = some { w with
    records := Keyed.upsertAll RecordEntry.recordId w.records (entriesOf rows) }

variable (J dir envs o) in
theorem disturbed_inserts (s : Session E) (w : MetadataSidecar) {rows calls : List (InsertCall F)}
    (hkeys : ∀ c ∈ calls, c.key ∈ rows.map InsertCall.key) (n : Nat) :
    Disturbed s.history
      (Runs.run (step J dir) s (callOps envs o n (calls.map .insert))).history w rows := by
  obtain ⟨hwritten, hlatest⟩ := run_inserts J dir envs o calls n s
  refine ⟨?_, Or.inl hwritten⟩
  intro id hid
  apply hlatest
  intro hmem
  obtain ⟨c, hc, rfl⟩ := List.mem_map.1 hmem
  exact hid (hkeys c hc)

/-- A run over the files of the plan, killed behind any of its calls. -/
theorem killed_disturbed (hE : TextOnly Em vec)
    (hpaths : collectFiles os opts fuel root = some (files.map Prod.fst))
    (hread : ∀ f ∈ files, ∀ text, read f.1 = .ok text → text = f.2) {m : M} {s : Session E}
    {t : Tenant E} (ht : s.handle = some t)
    {run : TreeRun M (Shelf E × List (Call F)) TenantError}
    (h : ingestTree Em (recorded (shelfWriter J envs o)) opts root read os fuel m
      (⟨0, s.files, t⟩, []) = some run) {made : List (Call F)} (hmade : made <+: run.writer.2) :
    Disturbed s.history (Runs.run (step J dir) s (callOps envs o 0 made)).history t.inner.sidecar
      (planned opts root vec files) := by
  rcases ingestTree_calls hE hpaths hread h with ⟨calls, hcalls, hkeys⟩ |
    ⟨w', done, hinsert, hcalls⟩
  · rw [hcalls, List.prefix_map_iff] at hmade
    obtain ⟨calls', hpre, rfl⟩ := hmade
    exact disturbed_inserts J dir envs o s _ (fun c hc => hkeys c (hpre.subset hc)) 0
  · rw [hcalls, List.prefix_concat_iff] at hmade
    rcases hmade with rfl | hmade
    · -- the flush has begun: the sidecar is as before it, or has the whole plan
      have hinserts := disturbed_inserts J dir envs o s t.inner.sidecar
        (fun c (hc : c ∈ planned opts root vec files) => List.mem_map_of_mem hc) 0
      obtain ⟨-, hsidecar, -, hrun⟩ := insertAll_session dir hinsert
      rw [hrun s rfl ht] at hinserts
      rw [callOps_append, Runs.run_append, hrun s rfl ht]
      generalize hcount : 0 + ((planned opts root vec files).map Call.insert).length = n
      rcases hflush : Tenant.flush J (o n) w'.files w'.tenant with ⟨files', r⟩
      obtain ⟨-, -, hhistory⟩ := step_flush J dir
        (s := ⟨w'.files, some w'.tenant, ((planned opts root vec files).map fun c =>
          Mark.inserted c.record).reverse ++ s.history⟩) rfl hflush
      have hlast : ∀ s₁ : Session E, Runs.run (step J dir) s₁
          (callOps envs o n [(.flush done : Call F)]) = step J dir s₁ (.flush (o n)) :=
        fun _ => rfl
      rw [hlast, hhistory]
      split
      · exact ⟨hinserts.latest, Or.inr (congrArg some hsidecar)⟩
      · exact hinserts
    · rw [List.prefix_map_iff] at hmade
      obtain ⟨calls', hpre, rfl⟩ := hmade
      exact disturbed_inserts J dir envs o s _
        (fun c hc => List.mem_map_of_mem (hpre.subset hc)) 0

end Killed

/-! ## A run after a killed one -/

section Resumed

variable {Em : Embed M F} {opts : IngestOptions} {root : PathBuf} {vec : Text → List F}
  {read₁ read : PathBuf → Except IoError Text} {os : Os} {fuel : Nat}

/-- `meta.json` holds the sidecar of the handle, as after an open or a flush. -/
def Saved (J : SerdeJson) (files : Dir E) (t : Tenant E) : Prop :=
  ∃ bytes, files.metaJson = some bytes ∧ J.fromSlice bytes = .ok t.inner.sidecar

/-- A run over the saved handle of any session is killed: only the calls `made` have happened, and
the last of them may be a flush that stopped anywhere. When the directory opens again and a run over
the same files returns `Ok`, the tenant has the records, in order, and the vectors that the run
would have left without the killed one. -/
theorem ingestTree_resumed (Md : E.Model) {J : SerdeJson} (hJ : J.Laws) (dir : PathBuf)
    (ops : List (Op E)) {t : Tenant E} (ht : (runs J dir ops).handle = some t)
    (hsaved : Saved J (runs J dir ops).files t) (hE : TextOnly Em vec)
    (hread : ReadExtends read₁ read) {envs₁ envs₂ envs₃ : Nat → E.Env}
    {o₁ o₂ o₃ : Nat → WriteOutcome}
    {m₁ m₂ m₃ : M} {killed : TreeRun M (Shelf E × List (Call F)) TenantError}
    (hkilled : ingestTree Em (recorded (shelfWriter J envs₁ o₁)) opts root read₁ os fuel m₁
      (⟨0, (runs J dir ops).files, t⟩, []) = some killed)
    {made : List (Call F)} (hmade : made <+: killed.writer.2) {env : OpenEnv E}
    {tenantId : TenantId} {embeddingDim : UInt32} {files₂ : Dir E} {t₂ : Tenant E}
    (hopen : Tenant.open J env dir (runs J dir (ops ++ callOps envs₁ o₁ 0 made)).files tenantId
      embeddingDim = (files₂, .ok t₂))
    {resumed alone : TreeRun M (Shelf E) TenantError} {stats stats' : IngestStats}
    (hresumed : ingestTree Em (shelfWriter J envs₂ o₂) opts root read os fuel m₂
      ⟨0, files₂, t₂⟩ = some resumed) (hok : resumed.result = .ok stats)
    (halone : ingestTree Em (shelfWriter J envs₃ o₃) opts root read os fuel m₃
      ⟨0, (runs J dir ops).files, t⟩ = some alone) (hok' : alone.result = .ok stats') :
    resumed.writer.tenant.inner.sidecar.records = alone.writer.tenant.inner.sidecar.records ∧
      Md.vectors resumed.writer.tenant.inner.index =
        Md.vectors alone.writer.tenant.inner.index := by
  have hs : Inv Md J (runs J dir ops) := runs_inv hJ dir ops
  have hs₁ : Inv Md J (runs J dir (ops ++ callOps envs₁ o₁ 0 made)) := runs_inv hJ dir _
  obtain ⟨files, m', vs, more, hpaths, htexts, -, hembed, -, hran⟩ :=
    ran_of_ingest ht rfl halone hok'
  have hread₁ : ∀ f ∈ files, ∀ text, read₁ f.1 = .ok text → text = f.2 := by
    intro f hf text htext
    have hsame := hread _ _ htext
    rw [htexts f hf] at hsame
    exact (Except.ok.inj hsame).symm
  have hplan : ∀ {m m' : M} {vs : List (List F)},
      embedAll Em m ((plan root files).map fun c => c.2.text) = some (m', vs) →
        planCalls opts root files vs = planned opts root vec files := by
    intro m m' vs h
    rw [planned, embedAll_textOnly hE h, List.map_map]
    rfl
  rw [hplan hembed] at hran
  -- what the killed run left
  have hleft : Disturbed (runs J dir ops).history
      (runs J dir (ops ++ callOps envs₁ o₁ 0 made)).history t.inner.sidecar
      (planned opts root vec files) := by
    rw [runs_append]
    exact killed_disturbed hE hpaths hread₁ ht hkilled hmade
  obtain ⟨bytes, hbytes, hparse⟩ := hsaved
  have hwritten := hs.disk.persisted bytes _ hbytes hparse
  -- what the open finds of it
  obtain ⟨w, hw, hrecords⟩ : ∃ w,
      written (runs J dir (ops ++ callOps envs₁ o₁ 0 made)).history = some w ∧
        (w.records = t.inner.sidecar.records ∨ w.records = Keyed.upsertAll RecordEntry.recordId
          t.inner.sidecar.records (entriesOf (planned opts root vec files))) := by
    rcases hleft.written with hsame | hplanned
    · exact ⟨_, hsame.trans hwritten, Or.inl rfl⟩
    · exact ⟨_, hplanned, Or.inr rfl⟩
  obtain ⟨rfl, hvectors₂⟩ := reopen_finds hs₁.disk hw hopen
  obtain ⟨hfiles₂, ht₂⟩ := step_reopen hopen
  rw [← runs_append] at hfiles₂ ht₂
  -- the run after the open
  obtain ⟨files', m₂', vs', more', hpaths', htexts', -, hembed', -, hran'⟩ :=
    ran_of_ingest ht₂ hfiles₂ hresumed hok
  have hsame : files'.map Prod.fst = files.map Prod.fst :=
    Option.some.inj (hpaths'.symm.trans hpaths)
  have hread' : ∀ f ∈ files, ∀ text, read f.1 = .ok text → text = f.2 := by
    intro f hf text htext
    rw [htexts f hf] at htext
    exact (Except.ok.inj htext).symm
  obtain rfl : files' = files := files_eq hsame htexts' hread'
  rw [hplan hembed'] at hran'
  refine ⟨?_, ?_⟩
  · rw [hran'.records, hran.records]
    rcases hrecords with hold | hnew
    · simp only [hold]
    · have hnodup : (t.inner.sidecar.records.map RecordEntry.recordId).Nodup :=
        (hs.held t ht).listed.nodup
      simp only [hnew, Keyed.upsertAll_idem RecordEntry.recordId hnodup]
  · have hs₃ : Inv Md J (runs J dir ((ops ++ callOps envs₁ o₁ 0 made ++
        [.close, .open env tenantId embeddingDim]) ++ more')) := runs_inv hJ dir _
    have hs₂ : Inv Md J (runs J dir (ops ++ callOps envs₁ o₁ 0 made ++
        [.close, .open env tenantId embeddingDim])) := runs_inv hJ dir _
    have hs₄ : Inv Md J (runs J dir (ops ++ more)) := runs_inv hJ dir _
    rw [hs₃.vectors Md J hran'.handle, hs₄.vectors Md J hran.handle, hran'.latest, hran.latest,
      ← hs₂.vectors Md J ht₂, hvectors₂]
    apply replay_congr_of_unwritten
    intro id hid
    apply hleft.latest
    intro hmem
    obtain ⟨c, hc, rfl⟩ := List.mem_map.1 hmem
    rw [writesTo, List.filter_eq_nil_iff] at hid
    exact hid _ (List.mem_map_of_mem hc) (decide_eq_true rfl)

end Resumed

section Notes

open Reference

/-- The session that opens a new tenant. -/
def openVault : List (Op engine) := [.open quiet .zero 1]

theorem handle_openVault : (runs json home openVault).handle = some vault.2 := rfl

theorem saved_openVault : Saved json (runs json home openVault).files vault.2 :=
  ⟨json.toVec vault.2.inner.sidecar, rfl, json_laws.roundTrip _⟩

/-- The notes go into the tenant of a directory. -/
def shelve (files : Dir engine) (t : Tenant engine) :
    Option (TreeRun (List Bool) (Shelf engine) TenantError) :=
  ingestTree scripted (shelfWriter json (fun _ => false) (fun _ => .done)) markdown notes readNotes
    notesOs 2 [] ⟨0, files, t⟩

/-- A run over a directory that ends well, where the directory opens again. -/
theorem shelve_done (files : Dir engine) (t : Tenant engine)
    (h : ((shelve files t).any fun run =>
      run.result.isOk && (Tenant.open json quiet home run.writer.files .zero 1).2.isOk) = true) :
    ∃ run stats files' t', shelve files t = some run ∧ run.result = .ok stats ∧
      Tenant.open json quiet home run.writer.files .zero 1 = (files', .ok t') := by
  obtain ⟨run, hrun, hok⟩ := (Option.any_eq_true ..).1 h
  obtain ⟨hdone, hopens⟩ := (Bool.and_eq_true ..).mp hok
  obtain ⟨stats, hstats⟩ := isOk_iff.1 hdone
  rcases hopen : Tenant.open json quiet home run.writer.files .zero 1 with ⟨files', e | t'⟩
  · rw [hopen] at hopens
    cases hopens
  · exact ⟨run, stats, files', t', hrun, hstats, hopen⟩

theorem ingestTree_durable_example : ∃ run files' t' files vs,
    shelve (runs json home openVault).files vault.2 = some run ∧
      Tenant.open json quiet home run.writer.files .zero 1 = (files', .ok t') ∧
      t'.inner.sidecar.records = Keyed.upsertAll RecordEntry.recordId []
        (entriesOf (planCalls (F := Int) markdown notes files vs)) := by
  obtain ⟨run, stats, files', t', hrun, hdone, hopen⟩ :=
    shelve_done (runs json home openVault).files vault.2 (by decide +kernel)
  obtain ⟨files, m', vs, -, -, -, -, hfinds⟩ := ingestTree_durable model json_laws home openVault
    handle_openVault hrun hdone
  exact ⟨run, files', t', files, vs, hrun, hopen, (hfinds _ _ _ _ _ hopen).1⟩

/-- A run into the new tenant whose calls are recorded. -/
def shelveRecorded : Option (TreeRun (List Bool) (Shelf engine × List (Call Int)) TenantError) :=
  ingestTree scripted (recorded (shelfWriter json (fun _ => false) (fun _ => .done))) markdown notes
    readNotes notesOs 2 [] (⟨0, (runs json home openVault).files, vault.2⟩, [])

/-- The directory after the second insert of that run. -/
def interrupted : Dir engine :=
  (runs json home (openVault ++ callOps (fun _ => false) (fun _ => .done) 0
    ((shelveRecorded.map fun run => run.writer.2.take 2).getD []))).files

/-- The process dies after the second insert. The directory opens again, and a run over the notes
leaves the records of a run into a new tenant. -/
theorem ingestTree_resumed_example : ∃ files₂ t₂ resumed alone,
    Tenant.open json quiet home interrupted .zero 1 = (files₂, .ok t₂) ∧
      shelve files₂ t₂ = some resumed ∧
      shelve (runs json home openVault).files vault.2 = some alone ∧
      resumed.writer.tenant.inner.sidecar.records = alone.writer.tenant.inner.sidecar.records ∧
      model.vectors resumed.writer.tenant.inner.index =
        model.vectors alone.writer.tenant.inner.index := by
  have hreopens : (match Tenant.open json quiet home interrupted .zero 1 with
      | (_, .error _) => false
      | (files₂, .ok t₂) => (shelve files₂ t₂).any fun run => run.result.isOk) = true := by
    decide +kernel
  have hrecorded : shelveRecorded.isSome = true := by decide +kernel
  have halone : (shelve (runs json home openVault).files vault.2).any
      (fun run => run.result.isOk) = true := by decide +kernel
  obtain ⟨killed, hkilled⟩ := Option.isSome_iff_exists.1 hrecorded
  obtain ⟨alone, halone, hok'⟩ := (Option.any_eq_true ..).1 halone
  obtain ⟨stats', hdone'⟩ := isOk_iff.1 hok'
  rcases hopen : Tenant.open json quiet home interrupted .zero 1 with ⟨files₂, e | t₂⟩
  · rw [hopen] at hreopens
    cases hreopens
  · rw [hopen] at hreopens
    obtain ⟨resumed, hresumed, hok⟩ := (Option.any_eq_true ..).1 hreopens
    obtain ⟨stats, hdone⟩ := isOk_iff.1 hok
    have hread : ReadExtends readNotes readNotes := fun _ _ h => h
    have hopen' := hopen
    rw [interrupted, hkilled, Option.map_some, Option.getD_some] at hopen'
    obtain ⟨hrecords, hvectors⟩ := ingestTree_resumed model json_laws home openVault
      handle_openVault saved_openVault scripted_textOnly hread hkilled (List.take_prefix _ _)
      hopen' hresumed hdone halone hdone'
    exact ⟨files₂, t₂, resumed, alone, rfl, hresumed, halone, hrecords, hvectors⟩

end Notes

end SkegRigging.Ingest
