import SkegRigging.Ingest.Tree

/-!
# The dimension of an embedder

`ingest_tree` compares the dimensions of the embedder and of the writer once, before the first file.
That every later insert has a vector of that dimension rests on what `Embed::dim` documents: it is
the dimension of the vectors that the backend produces (`ingestTree_sized`).
-/

set_option autoImplicit false

namespace SkegRigging.Ingest

variable {M W F Err : Type}

/-- What `Embed::dim` documents, in the states of `states`, which no call leaves: it stays the same
and it is the length of every vector that `passage` returns. -/
structure Embed.Sized (E : Embed M F) (states : M → Prop) (dim : UInt32) : Prop where
  announced : ∀ m, states m → E.dim m = dim
  closed : ∀ m text, states m → states (E.passage m text).1
  length : ∀ m text v, states m → (E.passage m text).2 = .ok v → v.length = dim.toNat

/-- One call of `passage`. -/
theorem Embed.Sized.answers {E : Embed M F} {states : M → Prop} {dim : UInt32}
    (hE : E.Sized states dim) {m m' : M} {text : Text} {result : Except String (List F)}
    (hm : states m) (h : E.passage m text = (m', result)) :
    states m' ∧ ∀ v, result = .ok v → v.length = dim.toNat := by
  have hclosed := hE.closed m text hm
  rw [h] at hclosed
  refine ⟨hclosed, fun v hv => hE.length m text v hm ?_⟩
  rw [h, hv]

/-- The invariant of an ingest run: every insert so far has a vector of the dimension `dim`. -/
structure Pipeline.Sized (states : M → Prop) (dim : UInt32)
    (p : Pipeline M (W × List (Call F))) : Prop where
  embedder : states p.embedder
  calls : ∀ call ∈ insertions p.writer.2, call.embedding.length = dim.toNat

section Run

variable {E : Embed M F} {states : M → Prop} {dim : UInt32} {T : TenantWrite W F Err}
  {opts : IngestOptions} {rel : String}

/-- One chunk: the vector goes from the embedder to the insert as it is. -/
theorem ingestChunk_sized (hE : E.Sized states dim) {p q : Pipeline M (W × List (Call F))}
    {c : Chunk} {r : Except (IngestError Err) Unit} (hp : p.Sized states dim)
    (h : ingestChunk E (recorded T) opts rel p c = (q, r)) : q.Sized states dim := by
  have hinserted : ∀ m v w result, E.passage p.embedder c.text = (m, .ok v) →
      (recorded T).insert p.writer ⟨p.stats.nextId⟩ v opts.shareable (opts.tags ++ [srcTag rel c])
        (utf8 c.text) = (w, result) →
      ∀ call ∈ insertions w.2, call.embedding.length = dim.toNat := by
    intro m v w result hpassage hinsert call hcall
    obtain ⟨-, hlength⟩ := hE.answers hp.embedder hpassage
    obtain ⟨-, hcalls⟩ := recorded_insert_ends hinsert
    rw [hcalls, insertions_append, insertions_insert, List.mem_append, List.mem_singleton] at hcall
    rcases hcall with hold | rfl
    · exact hp.calls call hold
    · exact hlength v rfl
  rcases ingestChunk_ends E (recorded T) opts rel h with
    ⟨m, message, hpassage, rfl, -⟩ | ⟨m, v, w, e, hpassage, hinsert, rfl, -⟩ |
    ⟨m, v, w, hpassage, hinsert, rfl, -⟩
  · exact ⟨(hE.answers hp.embedder hpassage).1, hp.calls⟩
  · exact ⟨(hE.answers hp.embedder hpassage).1, hinserted _ _ _ _ hpassage hinsert⟩
  · exact ⟨(hE.answers hp.embedder hpassage).1, hinserted _ _ _ _ hpassage hinsert⟩

theorem ingestChunks_sized (hE : E.Sized states dim) {p q : Pipeline M (W × List (Call F))}
    {cs : List Chunk} {r : Except (IngestError Err) Unit} (hp : p.Sized states dim)
    (h : ingestChunks E (recorded T) opts rel p cs = (q, r)) : q.Sized states dim := by
  induction cs generalizing p with
  | nil =>
    simp only [ingestChunks, Prod.mk.injEq] at h
    rw [← h.1]
    exact hp
  | cons c cs ih =>
    rcases ingestChunks_cons E (recorded T) opts rel h with ⟨e, hc, -⟩ | ⟨p₁, hc, hrest⟩
    · exact ingestChunk_sized hE hp hc
    · exact ih (ingestChunk_sized hE hp hc) hrest

variable {root : PathBuf} {read : PathBuf → Except IoError Text}

theorem ingestFile_sized (hE : E.Sized states dim) {p q : Pipeline M (W × List (Call F))}
    {file : PathBuf} {content : Except IoError Text} {r : Except (IngestError Err) Unit}
    (hp : p.Sized states dim)
    (h : ingestFile E (recorded T) opts root file content p = (q, r)) : q.Sized states dim := by
  cases content with
  | error e =>
    simp only [ingestFile, Prod.mk.injEq] at h
    rw [← h.1]
    exact hp
  | ok text => exact ingestChunks_sized hE hp h

theorem ingestFiles_sized (hE : E.Sized states dim) {p q : Pipeline M (W × List (Call F))}
    {files : List PathBuf} {seen : List IngestStats} {r : Except (IngestError Err) Unit}
    (hp : p.Sized states dim)
    (h : ingestFiles E (recorded T) opts root read p files = (q, seen, r)) :
    q.Sized states dim := by
  induction files generalizing p q seen r with
  | nil =>
    simp only [ingestFiles, Prod.mk.injEq] at h
    rw [← h.1]
    exact hp
  | cons file files ih =>
    rcases ingestFiles_cons E (recorded T) opts root read h with
      ⟨e, hfile, -⟩ | ⟨p₁, seen₁, hfile, hrest⟩
    · exact ingestFile_sized hE hp hfile
    · have hp₁ : p₁.Sized states dim := ingestFile_sized hE hp hfile
      have hcounted : Pipeline.Sized states dim { p₁ with stats := p₁.stats.addFile } :=
        ⟨hp₁.embedder, hp₁.calls⟩
      exact ih hcounted hrest

/-- The flush adds no insert to those of the files. -/
theorem ingestCollected_insertions (embedder : M) (s : W × List (Call F)) (files : List PathBuf) :
    insertions (ingestCollected E (recorded T) opts root read embedder s files).writer.2 =
      insertions (ingestFiles E (recorded T) opts root read
        ⟨embedder, s, .startingAt opts.startId⟩ files).1.writer.2 := by
  rw [ingestCollected]
  rcases ingestFiles E (recorded T) opts root read ⟨embedder, s, .startingAt opts.startId⟩ files
    with ⟨p, seen, e | ⟨⟩⟩
  · rfl
  · have hflushed : insertions ((recorded T).flush p.writer).1.2 = insertions p.writer.2 :=
      insertions_recorded_flush p.writer
    dsimp only
    rw [← hflushed]
    rcases (recorded T).flush p.writer with ⟨w, e | ⟨⟩⟩
    · rfl
    · rfl

/-- With an embedder that keeps to its documented dimension, the one comparison of the dimensions is
enough: every insert of the run, accepted or not, has a vector of the dimension of the writer. -/
theorem ingestTree_sized (hE : E.Sized states dim) {os : Os} {fuel : Nat} {embedder : M}
    {writer : W} (hstate : states embedder) {run : TreeRun M (W × List (Call F)) Err}
    (h : ingestTree E (recorded T) opts root read os fuel embedder (writer, []) = some run) :
    ∀ call ∈ insertions run.writer.2, call.embedding.length = (T.embeddingDim writer).toNat := by
  have hstart : Pipeline.Sized states dim
      (⟨embedder, (writer, []), .startingAt opts.startId⟩ : Pipeline M (W × List (Call F))) := by
    refine ⟨hstate, fun call hcall => ?_⟩
    exact absurd hcall List.not_mem_nil
  rw [ingestTree] at h
  split at h
  · -- the run ends before any call
    cases h
    exact fun call hcall => absurd hcall List.not_mem_nil
  · rename_i hdim
    have hwriter : dim = T.embeddingDim writer := by
      rw [← hE.announced embedder hstate]
      exact not_not.1 hdim
    obtain ⟨files, -, hrun⟩ := Option.map_eq_some_iff.1 h
    rw [← hrun, ← hwriter, ingestCollected_insertions]
    exact (ingestFiles_sized hE hstart rfl).calls

end Run

end SkegRigging.Ingest
