import SkegRigging.Reference.Ingest

/-!
# Record ids in watch mode

The id counter of the loop is copied back from the statistics only when a whole file went through.
An attempt that fails after some chunks were inserted leaves it behind, and the next insert of the
run overwrites the first of them (`freshIds_cutShort`).

`Stale` says that the counter stands at an id already taken. A visit either keeps the inserts of the
run consecutive and the counter after them, or is cut short and leaves the counter stale
(`visit_inserted`); a stale counter stays until an insert meets it. `freshIds_iff` follows by
induction over the run.
-/

set_option autoImplicit false

namespace SkegRigging.Ingest.Watch

open Runs Allocation

variable {M W F Err : Type} (E : Embed M F) (T : TenantWrite W F Err) (root : PathBuf)

/-- The insert calls made so far on the recorded writer. -/
def inserts (s : Watch M (W × List (Call F))) : List (InsertCall F) := insertions s.writer.2

/-- No insert of the run has the id of an earlier successful one. -/
def FreshIds (s : Watch M (W × List (Call F))) : Prop :=
  Fresh InsertCall.key InsertCall.accepted s.inserts

/-- The number of leading chunks of the file that are embedded and inserted. -/
def takenOf (s : Watch M W) (v : Visit) : Nat :=
  taken E T { s.opts with startId := s.nextId } (relpath root v.path) s.pipeline v.chunks

/-- The file is attempted, and the embedder or the writer fails on a chunk that is not its first. -/
def CutShort (s : Watch M W) (v : Visit) : Prop :=
  s.attempts v = true ∧ 0 < takenOf E T root s v ∧ takenOf E T root s v < v.chunks.length

/-- The file is attempted, it is not blank, and its first chunk is embedded. -/
def Inserts (s : Watch M W) (v : Visit) : Prop :=
  s.attempts v = true ∧ reachesInsert E s.embedder v.chunks = true

instance (s : Watch M W) (v : Visit) : Decidable (CutShort E T root s v) :=
  inferInstanceAs (Decidable (_ ∧ _ ∧ _))

instance (s : Watch M W) (v : Visit) : Decidable (Inserts E s v) :=
  inferInstanceAs (Decidable (_ ∧ _))

/-- The inserts so far are consecutive from `n`, and the counter stands after them. -/
structure Aligned (n : UInt64) (s : Watch M (W × List (Call F))) : Prop where
  consecutive : Consecutive InsertCall.key InsertCall.accepted n s.inserts
  next : s.nextId = advance InsertCall.accepted n s.inserts

/-- The counter stands at an id that is taken. -/
def Stale (s : Watch M (W × List (Call F))) : Prop :=
  ∃ c ∈ s.inserts, c.accepted = true ∧ c.key = s.nextId

variable {E T root}

/-! ## One visit -/

variable (E T root) in
/-- What a visit leaves: it adds inserts `new` with consecutive ids from the counter. The counter
moves past them, unless the file was cut short: then it stays, although an id was taken. -/
structure Visited (s : Watch M (W × List (Call F))) (v : Visit)
    (s' : Watch M (W × List (Call F))) (new : List (InsertCall F)) : Prop where
  calls : s'.inserts = s.inserts ++ new
  consecutive : Consecutive InsertCall.key InsertCall.accepted s.nextId new
  reached : new ≠ [] ↔ Inserts E s v
  next : (¬CutShort E (recorded T) root s v ∧
      s'.nextId = advance InsertCall.accepted s.nextId new) ∨
    (CutShort E (recorded T) root s v ∧ 0 < new.countP InsertCall.accepted ∧ s'.nextId = s.nextId)

/-- A visit that reaches no chunk makes no insert. -/
theorem visited_nothing {s s' : Watch M (W × List (Call F))} {v : Visit}
    (hcalls : s'.inserts = s.inserts) (hnext : s'.nextId = s.nextId)
    (hchunks : s.attempts v = true → v.chunks = []) : Visited E T root s v s' [] where
  calls := by rw [hcalls, List.append_nil]
  consecutive := trivial
  reached := by
    refine iff_of_false (fun h => h rfl) ?_
    rintro ⟨hattempts, hreach⟩
    rw [hchunks hattempts] at hreach
    simp [reachesInsert] at hreach
  next := by
    refine Or.inl ⟨?_, by rw [hnext, advance_nil]⟩
    rintro ⟨hattempts, -, hlt⟩
    rw [hchunks hattempts] at hlt
    simp at hlt

variable (E T root) in
/-- An attempt on a readable file. -/
theorem visited_readable {s : Watch M (W × List (Call F))} {v : Visit} {text : Text}
    (hattempts : s.attempts v = true) (hcontent : v.content = .ok text) :
    ∃ new, Visited E T root s v (s.visit E (recorded T) root v) new := by
  rw [visit_attempted hattempts, ingest_readable hcontent]
  obtain ⟨new, hnew⟩ := ingestChunks_inserted E T { s.opts with startId := s.nextId }
    (relpath root v.path) s.pipeline v.chunks
  have hreached : new ≠ [] ↔ Inserts E s v := by
    rw [hnew.reached, Inserts]
    exact ⟨fun h => ⟨hattempts, h⟩, fun h => h.2⟩
  have hcount : new.countP InsertCall.accepted = takenOf E (recorded T) root s v := hnew.count
  have hle : takenOf E (recorded T) root s v ≤ v.chunks.length := taken_le _ _ _ _ _ _
  -- the file went through exactly when every chunk was taken
  have hdone : (ingestChunks E (recorded T) { s.opts with startId := s.nextId }
      (relpath root v.path) s.pipeline v.chunks).2.isOk = true ↔
        takenOf E (recorded T) root s v = v.chunks.length := hnew.done
  rcases hrun : ingestChunks E (recorded T) { s.opts with startId := s.nextId }
    (relpath root v.path) s.pipeline v.chunks with ⟨p, error | ⟨⟩⟩
  · rw [hrun] at hnew hdone
    refine ⟨new, hnew.calls, hnew.consecutive, hreached, ?_⟩
    have hshort : takenOf E (recorded T) root s v < v.chunks.length :=
      Nat.lt_of_le_of_ne hle fun h => Bool.false_ne_true (hdone.2 h)
    rcases Nat.eq_zero_or_pos (takenOf E (recorded T) root s v) with hzero | hpos
    · -- nothing was inserted: the counter that stays behind is still the next free id
      refine Or.inl ⟨fun h => Nat.not_lt.2 (Nat.le_of_eq hzero) h.2.1, ?_⟩
      exact (advance_of_none _ (hcount.trans hzero)).symm
    · exact Or.inr ⟨⟨hattempts, hpos, hshort⟩, by rw [hcount]; exact hpos, rfl⟩
  · rw [hrun] at hnew hdone
    refine ⟨new, ?_, hnew.consecutive, hreached, Or.inl ⟨?_, hnew.nextId⟩⟩
    · exact (insertions_recorded_flush p.writer).trans hnew.calls
    · intro h
      exact Nat.ne_of_lt h.2.2 (hdone.1 rfl)

variable (E T root) in
theorem visit_inserted (s : Watch M (W × List (Call F))) (v : Visit) :
    ∃ new, Visited E T root s v (s.visit E (recorded T) root v) new := by
  cases hattempts : s.attempts v with
  | false =>
    rw [visit_skipped hattempts]
    exact ⟨[], visited_nothing rfl rfl fun h => by simp [hattempts] at h⟩
  | true =>
    cases hcontent : v.content with
    | error e =>
      -- an unreadable file has no chunks, so it cannot be cut short
      have hchunks : v.chunks = [] := by rw [Visit.chunks, hcontent]
      rw [visit_attempted hattempts, ingest_unreadable hcontent]
      exact ⟨[], visited_nothing rfl rfl fun _ => hchunks⟩
    | ok text => exact visited_readable E T root hattempts hcontent

/-! ## Runs -/

variable (T root) in
/-- A visit that makes no insert leaves the inserts and the counter alone. -/
theorem visit_of_not_inserts {s : Watch M (W × List (Call F))} {v : Visit} (hv : ¬Inserts E s v) :
    (s.visit E (recorded T) root v).inserts = s.inserts ∧
      (s.visit E (recorded T) root v).nextId = s.nextId := by
  obtain ⟨new, hcalls, -, hreached, hnext⟩ := visit_inserted E T root s v
  have hnone : new = [] := by
    by_contra hne
    exact hv (hreached.1 hne)
  subst hnone
  rw [List.append_nil] at hcalls
  refine ⟨hcalls, ?_⟩
  rcases hnext with ⟨-, hnext⟩ | ⟨-, hpos, -⟩
  · rw [hnext, advance_nil]
  · simp at hpos

theorem run_of_not_inserts {s : Watch M (W × List (Call F))} {vs : List Visit}
    (h : ∀ x ∈ trace (visit E (recorded T) root) s vs, ¬Inserts E x.1 x.2) :
    (run (visit E (recorded T) root) s vs).inserts = s.inserts := by
  induction vs generalizing s with
  | nil => rfl
  | cons v vs ih =>
    rw [trace_cons, List.forall_mem_cons] at h
    rw [run_cons, ih h.2, (visit_of_not_inserts T root h.1).1]

variable (E T root) in
/-- The inserts of a run only grow. -/
theorem inserts_prefix (s : Watch M (W × List (Call F))) (vs : List Visit) :
    s.inserts <+: (run (visit E (recorded T) root) s vs).inserts := by
  induction vs generalizing s with
  | nil => exact List.prefix_rfl
  | cons v vs ih =>
    obtain ⟨new, hcalls, -⟩ := visit_inserted E T root s v
    have hrest := ih (s.visit E (recorded T) root v)
    rw [hcalls] at hrest
    exact (List.prefix_append s.inserts new).trans hrest

/-- From a stale counter the first insert meets the id that is taken. -/
theorem Stale.not_inserts {s : Watch M (W × List (Call F))} (h : s.Stale) {vs : List Visit}
    (hfresh : FreshIds (run (visit E (recorded T) root) s vs)) :
    ∀ x ∈ trace (visit E (recorded T) root) s vs, ¬Inserts E x.1 x.2 := by
  induction vs generalizing s with
  | nil => simp
  | cons v vs ih =>
    have hv : ¬Inserts E s v := by
      intro hv
      obtain ⟨c, hc, haccepted, hkey⟩ := h
      obtain ⟨new, hcalls, hconsecutive, hreached, -⟩ :=
        visit_inserted E T root s v
      obtain ⟨first, rest, rfl⟩ := List.exists_cons_of_ne_nil (hreached.2 hv)
      -- the inserts of this visit stay in the run, so the final list still shows the clash
      have hprefix := inserts_prefix E T root (s.visit E (recorded T) root v) vs
      rw [hcalls] at hprefix
      have hpair := hfresh.sublist hprefix.sublist
      have hne := (List.pairwise_append.1 hpair).2.2 c hc first List.mem_cons_self haccepted
      exact hne (hkey.trans hconsecutive.1.symm)
    obtain ⟨hcalls, hnext⟩ := visit_of_not_inserts T root hv
    have hstale : (s.visit E (recorded T) root v).Stale := by
      rw [Stale, hcalls, hnext]
      exact h
    rw [trace_cons, List.forall_mem_cons]
    exact ⟨hv, ih hstale hfresh⟩

theorem Aligned.fresh_run_iff {n : UInt64} {s : Watch M (W × List (Call F))} (h : Aligned n s)
    (vs : List Visit) :
    FreshIds (run (visit E (recorded T) root) s vs) ↔
      (trace (visit E (recorded T) root) s vs).Pairwise
          (fun x y => CutShort E (recorded T) root x.1 x.2 → ¬Inserts E y.1 y.2) ∧
        (run (visit E (recorded T) root) s vs).inserts.dropLast.countP InsertCall.accepted <
          2 ^ 64 := by
  induction vs generalizing s with
  | nil =>
    rw [trace_nil, run_nil, FreshIds, Allocation.fresh_iff _ _ h.consecutive]
    simp
  | cons v vs ih =>
    obtain ⟨new, hcalls, hconsecutive, -, hnext⟩ :=
      visit_inserted E T root s v
    -- whatever becomes of the counter, the calls of this visit continue the sequence
    have hall : Consecutive InsertCall.key InsertCall.accepted n
        (s.visit E (recorded T) root v).inserts := by
      rw [hcalls, consecutive_append]
      exact ⟨h.consecutive, by rw [← h.next]; exact hconsecutive⟩
    rw [run_cons, trace_cons, List.pairwise_cons]
    rcases hnext with ⟨hwhole, hnext⟩ | ⟨hshort, hpos, hnext⟩
    · have haligned : Aligned n (s.visit E (recorded T) root v) :=
        ⟨hall, by rw [hnext, hcalls, advance_append, ← h.next]⟩
      rw [ih haligned, and_assoc]
      exact ⟨fun hrest => ⟨fun _ _ hcut => absurd hcut hwhole, hrest⟩, fun hrest => hrest.2⟩
    · have hstale : (s.visit E (recorded T) root v).Stale := by
        obtain ⟨c, hc, haccepted, hkey⟩ := hconsecutive.exists_taken _ _ hpos
        refine ⟨c, ?_, haccepted, by rw [hkey, hnext]⟩
        rw [hcalls]
        exact List.mem_append_right _ hc
      constructor
      · intro hfresh
        -- fresh ids from a stale counter: the rest of the run inserts nothing
        have hnone := hstale.not_inserts hfresh
        have htail : (trace (visit E (recorded T) root) (s.visit E (recorded T) root v) vs).Pairwise
            (fun x y => CutShort E (recorded T) root x.1 x.2 → ¬Inserts E y.1 y.2) := by
          apply List.pairwise_of_forall_mem_list
          intro x _ y hy _
          exact hnone y hy
        rw [FreshIds, run_of_not_inserts hnone, Allocation.fresh_iff _ _ hall] at hfresh
        rw [run_of_not_inserts hnone]
        exact ⟨⟨fun y hy _ => hnone y hy, htail⟩, hfresh⟩
      · rintro ⟨⟨hcut, -⟩, hcount⟩
        have hnone := fun y hy => hcut y hy hshort
        rw [run_of_not_inserts hnone] at hcount
        rw [FreshIds, run_of_not_inserts hnone, Allocation.fresh_iff _ _ hall]
        exact hcount

/-- Over a whole run: no insert has the id of an earlier successful one exactly when no insert comes
after a file that was cut short, nor after `2 ^ 64` successful inserts. -/
theorem freshIds_iff (opts : IngestOptions) (embedder : M) (writer : W) (ds : List Delivery) :
    FreshIds ((start opts embedder (writer, [])).watchTree E (recorded T) root ds) ↔
      (trace (visit E (recorded T) root) (start opts embedder (writer, []))
          (ds.flatMap visits)).Pairwise
          (fun x y => CutShort E (recorded T) root x.1 x.2 → ¬Inserts E y.1 y.2) ∧
        ((start opts embedder (writer, [])).watchTree E (recorded T) root
          ds).inserts.dropLast.countP InsertCall.accepted < 2 ^ 64 := by
  rw [watchTree_eq]
  have haligned : Aligned opts.startId
      (start opts embedder (writer, []) : Watch M (W × List (Call F))) :=
    ⟨trivial, (advance_nil _ _).symm⟩
  exact haligned.fresh_run_iff _

section Example

open Reference

/-- The embedder fails on the second paragraph of a file; then another file is saved. -/
def twoFiles : List Delivery :=
  [save "a.md" 0 5 (.ok "first\n\nsecond\n"), save "b.md" 2000 2005 (.ok "other\n")]

/-- The paragraph of the second file gets the id of the first file's first paragraph, and takes its
place in the tenant. -/
theorem freshIds_cutShort :
    let s := (start markdown [true, false] (vault, [])).watchTree scripted (recorded vaultWriter)
      notes twoFiles
    ¬FreshIds s ∧ s.inserts.map InsertCall.key = [0, 0] ∧
      s.writer.1.2.inner.sidecar.records.map RecordEntry.payload = [utf8 "other".toList] := by
  refine ⟨?_, ?_, ?_⟩
  · rw [FreshIds, Fresh]
    decide +kernel
  · decide +kernel
  · decide +kernel

end Example

end SkegRigging.Ingest.Watch
