import SkegRigging.Ingest.Embedder
import SkegRigging.Ingest.TenantWriter

/-!
# The dimensions of an embedder and of a tenant

`ingest_tree` compares the dimensions of the embedder and of the writer before it does anything
else, and then never meets a mismatch (`ingestTree_matched`). `watch_tree` does not compare them.
With an embedder of another dimension the tenant refuses the first vector of each file, the loop
skips the file as one that is half written, and nothing tells the caller (`watchTree_mismatch`).
-/

set_option autoImplicit false

namespace SkegRigging.Ingest

open Runs Reference Tenant

section Agreed

variable {M W F Err : Type}

/-- In the states of `kept` the writer refuses no vector of the dimension `dim` with a `wrong`
error, and an insert does not leave these states. -/
def Agrees (T : TenantWrite W F Err) (kept : W → Prop) (dim : UInt32) (wrong : Err → Prop) :
    Prop :=
  ∀ w id v shareable tags payload, kept w → v.length = dim.toNat →
    kept (T.insert w id v shareable tags payload).1 ∧
      ∀ e, (T.insert w id v shareable tags payload).2 = .error e → ¬wrong e

/-- The end of a part of an ingest: the embedder and the writer are as before it, and no insert was
refused with a `wrong` error. -/
structure Agreed (states : M → Prop) (kept : W → Prop) (wrong : Err → Prop) (q : Pipeline M W)
    (r : Except (IngestError Err) Unit) : Prop where
  embedder : states q.embedder
  writer : kept q.writer
  result : ∀ id e, r = .error (.insert id e) → ¬wrong e

variable {E : Embed M F} {T : TenantWrite W F Err} {states : M → Prop} {kept : W → Prop}
  {dim : UInt32} {wrong : Err → Prop} {opts : IngestOptions} {rel : String}

theorem ingestChunk_agreed (hE : E.Sized states dim) (hT : Agrees T kept dim wrong)
    {p q : Pipeline M W} {c : Chunk} {r : Except (IngestError Err) Unit}
    (hembedder : states p.embedder) (hwriter : kept p.writer)
    (h : ingestChunk E T opts rel p c = (q, r)) : Agreed states kept wrong q r := by
  have hinsert : ∀ m v w result, E.passage p.embedder c.text = (m, .ok v) →
      T.insert p.writer ⟨p.stats.nextId⟩ v opts.shareable (opts.tags ++ [srcTag rel c])
        (utf8 c.text) = (w, result) → kept w ∧ ∀ e, result = .error e → ¬wrong e := by
    intro m v w result hpassage hcall
    obtain ⟨-, hlength⟩ := hE.answers hembedder hpassage
    have hagrees := hT p.writer ⟨p.stats.nextId⟩ v opts.shareable (opts.tags ++ [srcTag rel c])
      (utf8 c.text) hwriter (hlength v rfl)
    rwa [hcall] at hagrees
  rcases ingestChunk_ends E T opts rel h with
    ⟨m, message, hpassage, rfl, rfl⟩ | ⟨m, v, w, e, hpassage, hrefused, rfl, rfl⟩ |
    ⟨m, v, w, hpassage, htaken, rfl, rfl⟩
  · exact ⟨(hE.answers hembedder hpassage).1, hwriter, fun id e he => by cases he⟩
  · obtain ⟨hkept, hright⟩ := hinsert _ _ _ _ hpassage hrefused
    refine ⟨(hE.answers hembedder hpassage).1, hkept, fun id e' he => ?_⟩
    cases he
    exact hright e rfl
  · obtain ⟨hkept, -⟩ := hinsert _ _ _ _ hpassage htaken
    exact ⟨(hE.answers hembedder hpassage).1, hkept, fun id e he => by cases he⟩

theorem ingestChunks_agreed (hE : E.Sized states dim) (hT : Agrees T kept dim wrong)
    {p q : Pipeline M W} {cs : List Chunk} {r : Except (IngestError Err) Unit}
    (hembedder : states p.embedder) (hwriter : kept p.writer)
    (h : ingestChunks E T opts rel p cs = (q, r)) : Agreed states kept wrong q r := by
  induction cs generalizing p with
  | nil =>
    simp only [ingestChunks, Prod.mk.injEq] at h
    obtain ⟨rfl, rfl⟩ := h
    exact ⟨hembedder, hwriter, fun id e he => by cases he⟩
  | cons c cs ih =>
    rcases ingestChunks_cons E T opts rel h with ⟨e, hc, rfl⟩ | ⟨p₁, hc, hrest⟩
    · exact ingestChunk_agreed hE hT hembedder hwriter hc
    · have hfirst := ingestChunk_agreed hE hT hembedder hwriter hc
      exact ih hfirst.embedder hfirst.writer hrest

variable {root : PathBuf} {read : PathBuf → Except IoError Text}

theorem ingestFile_agreed (hE : E.Sized states dim) (hT : Agrees T kept dim wrong)
    {p q : Pipeline M W} {file : PathBuf} {content : Except IoError Text}
    {r : Except (IngestError Err) Unit} (hembedder : states p.embedder) (hwriter : kept p.writer)
    (h : ingestFile E T opts root file content p = (q, r)) : Agreed states kept wrong q r := by
  cases content with
  | error error =>
    simp only [ingestFile, Prod.mk.injEq] at h
    obtain ⟨rfl, rfl⟩ := h
    exact ⟨hembedder, hwriter, fun id e he => by cases he⟩
  | ok text => exact ingestChunks_agreed hE hT hembedder hwriter h

theorem ingestFiles_agreed (hE : E.Sized states dim) (hT : Agrees T kept dim wrong)
    {p q : Pipeline M W} {files : List PathBuf} {seen : List IngestStats}
    {r : Except (IngestError Err) Unit} (hembedder : states p.embedder) (hwriter : kept p.writer)
    (h : ingestFiles E T opts root read p files = (q, seen, r)) :
    Agreed states kept wrong q r := by
  induction files generalizing p q seen r with
  | nil =>
    simp only [ingestFiles, Prod.mk.injEq] at h
    obtain ⟨rfl, -, rfl⟩ := h
    exact ⟨hembedder, hwriter, fun id e he => by cases he⟩
  | cons file files ih =>
    rcases ingestFiles_cons E T opts root read h with
      ⟨e, hfile, rfl⟩ | ⟨p₁, seen₁, hfile, hrest⟩
    · exact ingestFile_agreed hE hT hembedder hwriter hfile
    · have hfirst := ingestFile_agreed hE hT hembedder hwriter hfile
      refine ih ?_ ?_ hrest
      · exact hfirst.embedder
      · exact hfirst.writer

end Agreed

section Refused

variable {M W F Err : Type}

/-- In the states of `kept` the writer refuses every vector of the dimension `dim`, and neither this
nor a flush leaves these states. -/
structure Refuses (T : TenantWrite W F Err) (kept : W → Prop) (dim : UInt32) : Prop where
  insert : ∀ w id v shareable tags payload, kept w → v.length = dim.toNat →
    ∃ w' e, T.insert w id v shareable tags payload = (w', .error e) ∧ kept w'
  flush : ∀ w, kept w → kept (T.flush w).1

/-- Of a watch run: the writer is as it was, no id is used up, and the files that went through had
no chunk. -/
structure Watch.Barren (states : M → Prop) (kept : W → Prop) (n : UInt64) (s : Watch M W) :
    Prop where
  embedder : states s.embedder
  writer : kept s.writer
  nextId : s.nextId = n
  batches : ∀ b ∈ s.batches, b = ⟨1, 0, 0, n⟩

variable {E : Embed M F} {T : TenantWrite W F Err} {states : M → Prop} {kept : W → Prop}
  {dim : UInt32} {opts : IngestOptions} {rel : String} {root : PathBuf}

/-- No chunk goes through: the embedder fails, or the writer refuses the vector. -/
theorem ingestChunk_refused (hE : E.Sized states dim) (hT : Refuses T kept dim)
    {p q : Pipeline M W} {c : Chunk} {r : Except (IngestError Err) Unit}
    (hembedder : states p.embedder) (hwriter : kept p.writer)
    (h : ingestChunk E T opts rel p c = (q, r)) :
    (∃ e, r = .error e) ∧ states q.embedder ∧ kept q.writer ∧ q.stats = p.stats := by
  have hrefused : ∀ m v, E.passage p.embedder c.text = (m, .ok v) → ∃ w e,
      T.insert p.writer ⟨p.stats.nextId⟩ v opts.shareable (opts.tags ++ [srcTag rel c])
        (utf8 c.text) = (w, .error e) ∧ kept w := by
    intro m v hpassage
    obtain ⟨-, hlength⟩ := hE.answers hembedder hpassage
    exact hT.insert _ _ _ _ _ _ hwriter (hlength v rfl)
  rcases ingestChunk_ends E T opts rel h with
    ⟨m, message, hpassage, rfl, rfl⟩ | ⟨m, v, w, e, hpassage, hinsert, rfl, rfl⟩ |
    ⟨m, v, w, hpassage, hinsert, rfl, rfl⟩
  · exact ⟨⟨_, rfl⟩, (hE.answers hembedder hpassage).1, hwriter, rfl⟩
  · obtain ⟨w', e', hinsert', hkept⟩ := hrefused m v hpassage
    rw [hinsert] at hinsert'
    cases hinsert'
    exact ⟨⟨_, rfl⟩, (hE.answers hembedder hpassage).1, hkept, rfl⟩
  · obtain ⟨w', e', hinsert', -⟩ := hrefused m v hpassage
    rw [hinsert] at hinsert'
    cases hinsert'

theorem ingestFile_refused (hE : E.Sized states dim) (hT : Refuses T kept dim)
    {p q : Pipeline M W} {file : PathBuf} {content : Except IoError Text}
    {r : Except (IngestError Err) Unit} (hembedder : states p.embedder) (hwriter : kept p.writer)
    (h : ingestFile E T opts root file content p = (q, r)) :
    states q.embedder ∧ kept q.writer ∧ q.stats = p.stats := by
  cases content with
  | error e =>
    simp only [ingestFile, Prod.mk.injEq] at h
    rw [← h.1]
    exact ⟨hembedder, hwriter, rfl⟩
  | ok text =>
    rw [ingestFile] at h
    -- the first chunk, if there is one, is the last that is tried
    rcases hchunks : chunksOf file text with _ | ⟨c, cs⟩
    · rw [hchunks] at h
      simp only [ingestChunks, Prod.mk.injEq] at h
      rw [← h.1]
      exact ⟨hembedder, hwriter, rfl⟩
    · rw [hchunks] at h
      rcases ingestChunks_cons E T opts _ h with ⟨e, hc, -⟩ | ⟨p₁, hc, -⟩
      · exact (ingestChunk_refused hE hT hembedder hwriter hc).2
      · obtain ⟨⟨e, he⟩, -⟩ := ingestChunk_refused hE hT hembedder hwriter hc
        cases he

theorem Watch.visit_barren (root : PathBuf) (hE : E.Sized states dim) (hT : Refuses T kept dim)
    {n : UInt64} (s : Watch M W) (v : Visit) (hs : s.Barren states kept n) :
    (s.visit E T root v).Barren states kept n := by
  cases hattempt : s.attempts v with
  | false =>
    rw [visit_skipped hattempt]
    exact hs
  | true =>
    rw [visit_attempted hattempt]
    rcases hingest : s.ingest E T root v with ⟨p, e | ⟨⟩⟩
    · obtain ⟨hembedder, hwriter, -⟩ := ingestFile_refused hE hT hs.embedder hs.writer hingest
      exact ⟨hembedder, hwriter, hs.nextId, hs.batches⟩
    · obtain ⟨hembedder, hwriter, hstats⟩ := ingestFile_refused hE hT hs.embedder hs.writer hingest
      have hstart : p.stats = .startingAt n := by rw [hstats, pipeline, hs.nextId]
      refine ⟨hembedder, hT.flush _ hwriter, congrArg IngestStats.nextId hstart, fun b hb => ?_⟩
      rcases List.mem_append.1 hb with hb | hb
      · exact hs.batches b hb
      · rw [List.mem_singleton.1 hb, hstart]
        rfl

end Refused

/-- The script answers with vectors of length one. -/
theorem scripted_sized : scripted.Sized (fun _ => True) 1 where
  announced _ _ := rfl
  closed _ _ _ := trivial
  length := by
    rintro (_ | ⟨_ | _, script⟩) text v - h
    all_goals cases h
    all_goals rfl

section Skeg

variable {M F S : Type} {E : DiskVamanaIndex F S} {J : SerdeJson} {envs : Nat → E.Env}
  {o : Nat → WriteOutcome} {Em : Embed M F} {states : M → Prop} {dim : UInt32}

/-- A vector of the dimension of the tenant is not refused for its length. -/
theorem tenant_insert_matched (env : E.Env) (files : Dir E) {t : Tenant E} {r : Record F}
    (h : asU32 r.embedding.length = t.embeddingDim) :
    (Tenant.insert env files t r).2.1.embeddingDim = t.embeddingDim ∧
      ∀ a b, (Tenant.insert env files t r).2.2 ≠ .error (.dimMismatch a b) := by
  rw [insert_eq]
  rcases hstate : insertState env files t r with ⟨files', t', res⟩
  rw [insertState, if_neg (not_not.2 h)] at hstate
  by_cases hro : t.readOnly = true
  · rw [if_pos hro] at hstate
    cases hstate
    exact ⟨rfl, fun a b he => by cases he⟩
  · rw [if_neg hro] at hstate
    rcases hcall : E.insert env files.engine t.inner.index r.recordId.val r.embedding with
      ⟨⟨engine, index⟩, e | ⟨⟩⟩
    · rw [hcall] at hstate
      cases hstate
      exact ⟨rfl, fun a b he => by cases he⟩
    · rw [hcall] at hstate
      cases hstate
      exact ⟨rfl, fun a b he => by cases he⟩

/-- The error of a vector of another length. -/
def IsMismatch (e : TenantError) : Prop := ∃ a b, e = .dimMismatch a b

theorem agrees_shelfWriter :
    Agrees (shelfWriter J envs o : TenantWrite (Shelf E) F TenantError)
      (fun s => s.tenant.embeddingDim = dim) dim IsMismatch := by
  rintro ⟨n, files, t⟩ id v shareable tags payload rfl hlength
  have hlen : asU32 v.length = t.embeddingDim := by
    rw [hlength, asU32, UInt32.ofNat_toNat]
  obtain ⟨hdim, hresult⟩ := tenant_insert_matched (envs n) files
    (r := ⟨id, v, shareable, tags, payload⟩) hlen
  refine ⟨hdim, ?_⟩
  rintro e he ⟨a, b, rfl⟩
  exact hresult a b he

/-- With an embedder of the dimension of the tenant an `ingest_tree` may fail, but never with a
dimension mismatch, neither before the first file nor at a chunk. -/
theorem ingestTree_matched (hEm : Em.Sized states dim) (opts : IngestOptions) (root : PathBuf)
    (read : PathBuf → Except IoError Text) (os : Os) (fuel : Nat) {m : M} (hm : states m)
    {s : Shelf E} (hdim : dim = s.tenant.embeddingDim) {run : TreeRun M (Shelf E) TenantError}
    (h : ingestTree Em (shelfWriter J envs o) opts root read os fuel m s = some run) :
    ∀ a b, run.result ≠ .error (.dimMismatch a b) ∧
      ∀ id, run.result ≠ .error (.file (.insert id (.dimMismatch a b))) := by
  intro a b
  have hcompared : Em.dim m = (shelfWriter J envs o).embeddingDim s := by
    rw [hEm.announced m hm, hdim]
    rfl
  rw [ingestTree, if_neg (not_not.2 hcompared)] at h
  obtain ⟨files, -, rfl⟩ := Option.map_eq_some_iff.1 h
  rw [ingestCollected]
  rcases hloop : ingestFiles Em (shelfWriter J envs o) opts root read
    ⟨m, s, .startingAt opts.startId⟩ files with ⟨p, seen, e | ⟨⟩⟩
  · have hagreed := ingestFiles_agreed hEm agrees_shelfWriter hm hdim.symm hloop
    refine ⟨fun he => ?_, fun id he => ?_⟩
    · cases he
    · cases he
      exact hagreed.result id _ rfl ⟨a, b, rfl⟩
  · dsimp only
    rcases (shelfWriter J envs o).flush p.writer with ⟨w, e | ⟨⟩⟩
    · refine ⟨fun he => ?_, fun id he => ?_⟩
      · cases he
      · cases he
    · refine ⟨fun he => ?_, fun id he => ?_⟩
      · cases he
      · cases he

/-- The embedder fails at the second chunk of the notes, and that is the error. -/
theorem ingestTree_matched_example : ∃ run,
    ingestTree scripted (shelfWriter json (fun _ => false) fun _ => .done) markdown notes readNotes
      notesOs 2 [true, false] ⟨0, vault.1, vault.2⟩ = some run ∧ run.result.isOk = false ∧
    ∀ a b, run.result ≠ .error (.dimMismatch a b) ∧
      ∀ id, run.result ≠ .error (.file (.insert id (.dimMismatch a b))) := by
  have hfails : (ingestTree scripted (shelfWriter json (fun _ => false) fun _ => .done) markdown
      notes readNotes notesOs 2 [true, false] ⟨0, vault.1, vault.2⟩).any
        (fun run => !run.result.isOk) = true := by
    decide +kernel
  rcases hrun : ingestTree scripted (shelfWriter json (fun _ => false) fun _ => .done) markdown
    notes readNotes notesOs 2 [true, false] ⟨0, vault.1, vault.2⟩ with _ | run
  · rw [hrun] at hfails
    cases hfails
  · rw [hrun, Option.any_some, Bool.not_eq_true'] at hfails
    exact ⟨run, hrun, hfails, ingestTree_matched scripted_sized markdown notes readNotes notesOs 2
      trivial (by decide) hrun⟩

/-- A vector of another dimension does not get as far as the engine. -/
theorem tenant_insert_refused (env : E.Env) (files : Dir E) {t : Tenant E} {r : Record F}
    (h : asU32 r.embedding.length ≠ t.embeddingDim) :
    ∃ e, Tenant.insert env files t r = (files, t, .error e) := by
  rw [Tenant.insert, insertState]
  by_cases hro : t.readOnly = true
  · rw [if_pos hro]
    exact ⟨readOnlyError, rfl⟩
  · rw [if_neg hro, if_pos h]
    exact ⟨.dimMismatch t.embeddingDim (asU32 r.embedding.length), rfl⟩

/-- A tenant refuses the vectors of another dimension. A flush writes `meta.json` again. -/
theorem refuses_shelfWriter (files : Dir E) {t : Tenant E} (hdim : dim ≠ t.embeddingDim) :
    Refuses (shelfWriter J envs o)
      (fun s => s.tenant = t ∧ s.files.engine = files.engine) dim where
  insert := by
    rintro ⟨n, dirFiles, u⟩ id v shareable tags payload ⟨rfl, hengine⟩ hlength
    have hlen : asU32 v.length = dim := by rw [hlength, asU32, UInt32.ofNat_toNat]
    obtain ⟨e, hinsert⟩ := tenant_insert_refused (envs n) dirFiles
      (r := ⟨id, v, shareable, tags, payload⟩) (hlen ▸ hdim)
    refine ⟨⟨n + 1, dirFiles, u⟩, e, ?_, rfl, hengine⟩
    simp only [shelfWriter, hinsert]
  flush := by
    rintro ⟨n, dirFiles, _⟩ ⟨rfl, hengine⟩
    simp only [shelfWriter, Tenant.flush]
    split <;> exact ⟨trivial, hengine⟩

/-- With an embedder of another dimension than the tenant's, `ingest_tree` ends before any call.
`watch_tree` runs, but whatever happens in it the tenant and its index stay as they are, no id is
used up, and `on_batch` hears only of files without a chunk. -/
theorem watchTree_mismatch (hEm : Em.Sized states dim) (opts : IngestOptions) (root : PathBuf)
    {m : M} (hm : states m) (files : Dir E) {t : Tenant E} (hdim : dim ≠ t.embeddingDim) :
    (∀ read os fuel, ingestTree Em (shelfWriter J envs o) opts root read os fuel m ⟨0, files, t⟩ =
      some ⟨m, ⟨0, files, t⟩, [], .error (.dimMismatch dim t.embeddingDim)⟩) ∧
    ∀ ds s, (Watch.start opts m ⟨0, files, t⟩).watchTree Em (shelfWriter J envs o) root ds = s →
      s.writer.tenant = t ∧ s.writer.files.engine = files.engine ∧ s.nextId = opts.startId ∧
        ∀ b ∈ s.batches, b = ⟨1, 0, 0, opts.startId⟩ := by
  constructor
  · intro read os fuel
    have hcompared : Em.dim m ≠ (shelfWriter J envs o).embeddingDim ⟨0, files, t⟩ := by
      rw [hEm.announced m hm]
      exact hdim
    rw [ingestTree, if_pos hcompared, hEm.announced m hm]
    rfl
  · rintro ds s rfl
    have hstart : (Watch.start opts m (⟨0, files, t⟩ : Shelf E)).Barren states
        (fun s => s.tenant = t ∧ s.files.engine = files.engine) opts.startId :=
      ⟨hm, ⟨rfl, rfl⟩, rfl, fun b hb => absurd hb List.not_mem_nil⟩
    rw [Watch.watchTree_eq]
    have hrefuses : Refuses (shelfWriter J envs o) _ dim := refuses_shelfWriter files hdim
    have hend := run_invariant _ (Watch.visit_barren root hEm hrefuses) hstart
      (ds.flatMap Watch.visits)
    exact ⟨hend.writer.1, hend.writer.2, hend.nextId, hend.batches⟩

end Skeg

/-- A tenant of dimension two. -/
def wideVault : Tenant engine := Tenant.handle home (.empty 2) (.empty .zero 2) .zero 2

/-- A note of two paragraphs is saved, and an empty one. Only the empty one is reported. -/
def twoSaves : List Delivery :=
  [save "a.md" 0 5 (.ok "first\n\nsecond\n"), save "b.md" 2000 2005 (.ok "\n")]

theorem watchTree_mismatch_example : ∃ s,
    (Watch.start markdown [] ⟨0, vault.1, wideVault⟩).watchTree scripted
      (shelfWriter json (fun _ => false) fun _ => .done) notes twoSaves = s ∧
    s.writer.tenant = wideVault ∧ s.batches.length = 1 ∧
      ∀ b ∈ s.batches, b = ⟨1, 0, 0, markdown.startId⟩ := by
  have hone : ((Watch.start markdown [] ⟨0, vault.1, wideVault⟩).watchTree scripted
      (shelfWriter json (fun _ => false) fun _ => .done) notes twoSaves).batches.length = 1 := by
    decide +kernel
  obtain ⟨htenant, -, -, hbatches⟩ := (watchTree_mismatch scripted_sized markdown notes trivial
    vault.1 (by decide : (1 : UInt32) ≠ wideVault.embeddingDim)).2 twoSaves _ rfl
  exact ⟨_, rfl, htenant, hone, hbatches⟩

end SkegRigging.Ingest
