import SkegRigging.Ingest.RecordIds
import SkegRigging.Ingest.Tree

/-!
# What watch mode reports

By its documentation `watch_tree` calls `on_batch` with the cumulative statistics after each file,
as `ingest_tree` calls `progress` (`cumulative_eq_progressFrom`). The loop builds new statistics for
every file and sets their `files` to one, so each call gets the statistics of one file
(`run_batches`); only `next_id` is carried on. They are the cumulative ones exactly in the runs that
ingest at most one file (`batches_cumulative_iff`).
-/

set_option autoImplicit false

namespace SkegRigging.Ingest

/-- The words of the chunks of the observed content. -/
def Visit.words (v : Visit) : Nat := (v.chunks.map fun c => wordCount c.text).sum

/-- The statistics of a run that has ingested `files`, when `nextId` is the next id to be
allocated. -/
def totals (files : List Visit) (nextId : UInt64) : IngestStats where
  files := files.length
  chunks := (files.map fun v => v.chunks.length).sum
  words := (files.map Visit.words).sum
  nextId := nextId

namespace Watch

open Runs

variable {M W F Err : Type} (E : Embed M F) (T : TenantWrite W F Err) (root : PathBuf)

/-- The file is attempted, it can be read, and the embedder and the writer take all its chunks. -/
def Ingests (s : Watch M W) (v : Visit) : Prop :=
  s.attempts v = true ∧ v.content.isOk = true ∧ takenOf E T root s v = v.chunks.length

instance (s : Watch M W) (v : Visit) : Decidable (Ingests E T root s v) :=
  inferInstanceAs (Decidable (_ ∧ _ ∧ _))

/-- The cumulative statistics after each file that a run ingests, when `done` were ingested before
it. -/
def cumulative (done : List Visit) (s : Watch M W) : List Visit → List IngestStats
  | [] => []
  | v :: vs =>
    let s' := s.visit E T root v
    if Ingests E T root s v then totals (done ++ [v]) s'.nextId :: cumulative (done ++ [v]) s' vs
    else cumulative done s' vs

/-- The statistics of each file that a run ingests, taken alone. -/
def perFile (s : Watch M W) : List Visit → List IngestStats
  | [] => []
  | v :: vs =>
    let s' := s.visit E T root v
    if Ingests E T root s v then totals [v] s'.nextId :: perFile s' vs else perFile s' vs

variable {E T root}

/-! ## The calls of on_batch -/

variable (E T root) in
/-- `Ingests` is the success of `ingest_file`, which has then counted the chunks of the file. -/
theorem ingest_ends {s : Watch M W} {v : Visit} (hattempts : s.attempts v = true) :
    ((s.ingest E T root v).2 = .ok () ↔ Ingests E T root s v) ∧
      (Ingests E T root s v → (s.ingest E T root v).1.stats =
        v.chunks.foldl IngestStats.addChunk (.startingAt s.nextId)) := by
  cases hcontent : v.content with
  | error e =>
    have hnot : ¬ Ingests E T root s v := by
      rintro ⟨-, hok, -⟩
      rw [hcontent] at hok
      cases hok
    rw [ingest_unreadable hcontent]
    exact ⟨iff_of_false (by simp) hnot, fun h => absurd h hnot⟩
  | ok text =>
    have hingests : Ingests E T root s v ↔ takenOf E T root s v = v.chunks.length := by
      refine ⟨fun h => h.2.2, fun h => ⟨hattempts, ?_, h⟩⟩
      rw [hcontent]
      rfl
    rw [ingest_readable hcontent]
    rcases hrun : ingestChunks E T { s.opts with startId := s.nextId } (relpath root v.path)
      s.pipeline v.chunks with ⟨p, r⟩
    obtain ⟨hdone, hstats⟩ := ingestChunks_taken E T _ _ hrun
    have hok : r = .ok () ↔ Ingests E T root s v := hdone.trans hingests.symm
    exact ⟨hok, fun h => hstats (hok.2 h)⟩

/-- A file that is ingested is reported alone, and the counter moves past its chunks. -/
theorem visit_ingests {s : Watch M W} {v : Visit} (h : Ingests E T root s v) :
    (s.visit E T root v).batches = s.batches ++ [totals [v] (s.visit E T root v).nextId] ∧
      (s.visit E T root v).nextId = s.nextId + UInt64.ofNat v.chunks.length := by
  obtain ⟨hok, hstats⟩ := ingest_ends E T root h.1
  rw [visit_attempted h.1]
  rcases hrun : s.ingest E T root v with ⟨p, e | ⟨⟩⟩
  · rw [hrun] at hok
    cases hok.2 h
  · rw [hrun] at hstats
    have hp : p.stats = v.chunks.foldl IngestStats.addChunk (.startingAt s.nextId) := hstats h
    rw [foldl_addChunk] at hp
    constructor
    · show s.batches ++ [{ p.stats with files := 1 }] = s.batches ++ [totals [v] p.stats.nextId]
      rw [hp]
      simp [totals, Visit.words, IngestStats.startingAt]
    · show p.stats.nextId = _
      rw [hp]
      rfl

/-- Any other visit reports nothing and leaves the counter. -/
theorem visit_not_ingests {s : Watch M W} {v : Visit} (h : ¬ Ingests E T root s v) :
    (s.visit E T root v).batches = s.batches ∧ (s.visit E T root v).nextId = s.nextId := by
  cases hattempts : s.attempts v with
  | false =>
    rw [visit_skipped hattempts]
    exact ⟨rfl, rfl⟩
  | true =>
    obtain ⟨hok, -⟩ := ingest_ends E T root hattempts
    rw [visit_attempted hattempts]
    rcases hrun : s.ingest E T root v with ⟨p, e | ⟨⟩⟩
    · exact ⟨rfl, rfl⟩
    · rw [hrun] at hok
      exact absurd (hok.1 rfl) h

/-- Each call of `on_batch` gets the statistics of one file. -/
theorem run_batches (s : Watch M W) (vs : List Visit) :
    (run (visit E T root) s vs).batches = s.batches ++ perFile E T root s vs := by
  induction vs generalizing s with
  | nil => exact (List.append_nil _).symm
  | cons v vs ih =>
    rw [run_cons, ih, perFile]
    split
    · rename_i hv
      rw [(visit_ingests hv).1, List.append_assoc, List.singleton_append]
    · rename_i hv
      rw [(visit_not_ingests hv).1]

/-! ## Against the cumulative statistics -/

variable (E T root) in
/-- The files that a run ingests, in order, with what was read. -/
def ingested (s : Watch M W) : List Visit → List (PathBuf × Text)
  | [] => []
  | v :: vs =>
    let rest := ingested (s.visit E T root v) vs
    if Ingests E T root s v then (v.path, v.content.toOption.getD []) :: rest else rest

theorem Ingests.chunks_eq {s : Watch M W} {v : Visit} (h : Ingests E T root s v) :
    chunksOf v.path (v.content.toOption.getD []) = v.chunks := by
  obtain ⟨-, hok, -⟩ := h
  rw [Visit.chunks]
  cases hcontent : v.content with
  | error e =>
    rw [hcontent] at hok
    cases hok
  | ok text => rfl

theorem totals_snoc (done : List Visit) (v : Visit) (nextId : UInt64) :
    totals (done ++ [v]) (nextId + UInt64.ofNat v.chunks.length) =
      (v.chunks.foldl IngestStats.addChunk (totals done nextId)).addFile := by
  rw [foldl_addChunk]
  simp [totals, IngestStats.addFile, Visit.words]

/-- The cumulative statistics are what `ingest_tree` gives to `progress` for the same files. -/
theorem cumulative_eq_progressFrom (done : List Visit) (s : Watch M W) (vs : List Visit) :
    cumulative E T root done s vs =
      progressFrom (totals done s.nextId) (ingested E T root s vs) := by
  induction vs generalizing done s with
  | nil => rfl
  | cons v vs ih =>
    rw [cumulative, ingested]
    split
    · rename_i hv
      rw [progressFrom, ih, hv.chunks_eq, ← totals_snoc, (visit_ingests hv).2]
    · rename_i hv
      rw [ih, (visit_not_ingests hv).2]

/-- Once a file was ingested, the statistics of the next one alone are not the cumulative ones. -/
theorem totals_ne {done : List Visit} (hdone : done ≠ []) (v : Visit) (nextId : UInt64) :
    totals [v] nextId ≠ totals (done ++ [v]) nextId := by
  intro h
  have hfiles : 1 = (done ++ [v]).length := congrArg IngestStats.files h
  rw [List.length_append, List.length_singleton] at hfiles
  have hpos : 0 < done.length := List.length_pos_iff.2 hdone
  omega

theorem perFile_eq_cumulative_iff {done : List Visit} (hdone : done ≠ []) (s : Watch M W)
    (vs : List Visit) :
    perFile E T root s vs = cumulative E T root done s vs ↔
      ∀ x ∈ trace (visit E T root) s vs, ¬ Ingests E T root x.1 x.2 := by
  induction vs generalizing s with
  | nil => simp [perFile, cumulative]
  | cons v vs ih =>
    rw [perFile, cumulative, trace_cons, List.forall_mem_cons]
    dsimp only
    split
    · rename_i hv
      refine iff_of_false ?_ fun h => h.1 hv
      intro h
      exact totals_ne hdone v _ (List.cons.inj h).1
    · rename_i hv
      rw [ih, and_iff_right hv]

theorem perFile_eq_cumulative_nil_iff (s : Watch M W) (vs : List Visit) :
    perFile E T root s vs = cumulative E T root [] s vs ↔
      (trace (visit E T root) s vs).Pairwise
        fun x y => Ingests E T root x.1 x.2 → ¬ Ingests E T root y.1 y.2 := by
  induction vs generalizing s with
  | nil => simp [perFile, cumulative]
  | cons v vs ih =>
    rw [perFile, cumulative, trace_cons, List.pairwise_cons]
    dsimp only
    split
    · -- the first file: from here on nothing more may be ingested
      rename_i hv
      rw [List.nil_append, List.cons_inj_right, perFile_eq_cumulative_iff (List.cons_ne_nil v [])]
      constructor
      · intro hnone
        refine ⟨fun y hy _ => hnone y hy, ?_⟩
        exact List.pairwise_of_forall_mem_list fun _ _ y hy _ => hnone y hy
      · rintro ⟨hlater, -⟩ y hy
        exact hlater y hy hv
    · rename_i hv
      rw [ih, and_iff_right fun _ _ h => absurd h hv]

/-- Over a whole run: the calls of `on_batch` get the cumulative statistics exactly when no file is
ingested after another one. -/
theorem batches_cumulative_iff (opts : IngestOptions) (embedder : M) (writer : W)
    (ds : List Delivery) :
    ((start opts embedder writer).watchTree E T root ds).batches =
        cumulative E T root [] (start opts embedder writer) (ds.flatMap visits) ↔
      (trace (visit E T root) (start opts embedder writer) (ds.flatMap visits)).Pairwise
        fun x y => Ingests E T root x.1 x.2 → ¬ Ingests E T root y.1 y.2 := by
  have hbatches : ((start opts embedder writer).watchTree E T root ds).batches =
      perFile E T root (start opts embedder writer) (ds.flatMap visits) := by
    rw [watchTree_eq, run_batches]
    rfl
  rw [hbatches]
  exact perFile_eq_cumulative_nil_iff _ _

section Example

open Reference

/-- Two files are saved, two seconds apart. -/
def twoSaves : List Delivery :=
  [save "a.md" 0 5 (.ok "first\n"), save "b.md" 2000 2005 (.ok "second file\n")]

/-- The second call of `on_batch` reports one file of two words, not two files of three. -/
theorem batches_cumulative_twoSaves :
    let s := start markdown [] vault
    let batches := (s.watchTree scripted vaultWriter notes twoSaves).batches
    let expected := cumulative scripted vaultWriter notes [] s (twoSaves.flatMap visits)
    batches ≠ expected ∧ batches = [⟨1, 1, 1, 1⟩, ⟨1, 1, 2, 2⟩] ∧
      expected = [⟨1, 1, 1, 1⟩, ⟨2, 2, 3, 2⟩] := by
  decide +kernel

end Example

end Watch

end SkegRigging.Ingest
