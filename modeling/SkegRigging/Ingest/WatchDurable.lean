import SkegRigging.Ingest.Progress
import SkegRigging.Ingest.Provenance

/-!
# What watch mode leaves in a tenant directory

A watch run whose writer is a skeg tenant may end at any instant: between two events, in the middle
of a file, or inside one of its flushes. The calls on the writer up to there are operations of a
session (`run_traces`), so the directory holds the records from before the last flush that was done,
and the vectors of all accepted inserts (`told_holds`, `told_written`).

A file that went through is safe behind the next flush that is done: no later insert of the run has
one of its ids, so every later open finds its rows (`watchTree_durable`). The ids of a file that
failed are used again, and nothing is promised of its rows.
-/

set_option autoImplicit false

namespace SkegRigging.Ingest

open Session History Replay Runs Allocation

variable {M F S : Type} {E : DiskVamanaIndex F S}

/-! ## What calls leave -/

/-- The inserts among the calls that the writer accepted. -/
def acceptedOf (calls : List (Call F)) : List (InsertCall F) :=
  (insertions calls).filter InsertCall.accepted

@[simp] theorem acceptedOf_append (xs ys : List (Call F)) :
    acceptedOf (xs ++ ys) = acceptedOf xs ++ acceptedOf ys := by
  rw [acceptedOf, insertions_append, List.filter_append]
  rfl

@[simp] theorem acceptedOf_flush (done : Bool) : acceptedOf [(.flush done : Call F)] = [] := rfl

theorem acceptedOf_map_insert {rows : List (InsertCall F)}
    (h : ∀ c ∈ rows, c.accepted = true) : acceptedOf (rows.map .insert) = rows := by
  rw [acceptedOf, insertions_map_insert, List.filter_eq_self]
  exact h

theorem acceptedOf_subset {calls calls' : List (Call F)} (h : calls <+: calls') :
    acceptedOf calls ⊆ acceptedOf calls' := by
  obtain ⟨rest, rfl⟩ := h
  rw [acceptedOf_append]
  exact List.subset_append_left _ _

theorem countP_insertions (calls : List (Call F)) :
    (insertions calls).countP InsertCall.accepted = (acceptedOf calls).length :=
  List.countP_eq_length_filter

theorem mem_acceptedOf {calls : List (Call F)} {c : InsertCall F} :
    c ∈ acceptedOf calls ↔ c ∈ insertions calls ∧ c.accepted = true := List.mem_filter

/-- A flush that was done. -/
def Call.flushed : Call F → Bool
  | .insert _ => false
  | .flush done => done

section Told

variable {J : SerdeJson} {dir : PathBuf} {envs : Nat → E.Env} {o : Nat → WriteOutcome} {n : Nat}
  {s : Session E} {t : Tenant E} {calls xs ys : List (Call F)}

/-- After calls that tell what they did, the handle has the accepted entries upserted in order, and
the latest vectors are theirs. -/
theorem told_holds (h : AllTold J dir envs o n s calls) (ht : s.handle = some t) :
    ∃ t', (run (step J dir) s (callOps envs o n calls)).handle = some t' ∧
      t'.readOnly = t.readOnly ∧ t'.inner.sidecar = { t.inner.sidecar with
        records := Keyed.upsertAll RecordEntry.recordId t.inner.sidecar.records
          (entriesOf (acceptedOf calls)) } ∧
      latest (run (step J dir) s (callOps envs o n calls)).history =
        replay (latest s.history) (vectorsOf (acceptedOf calls)) := by
  induction calls generalizing n s t with
  | nil => exact ⟨t, ht, rfl, rfl, rfl⟩
  | cons call calls ih =>
    obtain ⟨htold, hrest⟩ := h
    cases call with
    | insert c =>
      obtain ⟨t₀, t₁, ht₀, ht₁, hro, hsidecar, hhistory⟩ := htold
      obtain rfl : t₀ = t := Option.some.inj (ht₀.symm.trans ht)
      obtain ⟨t', ht', hro', hsidecar', hlatest'⟩ := ih hrest ht₁
      refine ⟨t', ht', hro'.trans hro, ?_, ?_⟩
      · rw [hsidecar', hsidecar]
        cases hacc : c.accepted with
        | false => simp [acceptedOf, insertions, hacc]
        | true => simp [acceptedOf, insertions, hacc, entriesOf]
      · refine hlatest'.trans ?_
        rw [hhistory]
        cases hacc : c.accepted with
        | false => simp [acceptedOf, insertions, hacc]
        | true => simp [acceptedOf, insertions, hacc, vectorsOf, InsertCall.key, InsertCall.record]
    | flush done =>
      obtain ⟨t₀, ht₀, ht₁, hhistory⟩ := htold
      obtain rfl : t₀ = t := Option.some.inj (ht₀.symm.trans ht)
      obtain ⟨t', ht', hro', hsidecar', hlatest'⟩ := ih hrest ht₁
      refine ⟨t', ht', hro', hsidecar', hlatest'.trans ?_⟩
      rw [hhistory]
      split
      · rfl
      · rfl

/-- The last call decides on the sidecar last written if it is a flush that was done. -/
theorem told_concat {call : Call F} (h : AllTold J dir envs o n s (xs ++ [call]))
    (ht : s.handle = some t) (hrw : t.readOnly = false) :
    written (run (step J dir) s (callOps envs o n (xs ++ [call]))).history =
      if call.flushed then
        some { t.inner.sidecar with
          records := Keyed.upsertAll RecordEntry.recordId t.inner.sidecar.records
            (entriesOf (acceptedOf xs)) }
      else written (run (step J dir) s (callOps envs o n xs)).history := by
  obtain ⟨htold, hlast, -⟩ := allTold_append.1 h
  obtain ⟨t₁, ht₁, hro, hsidecar, -⟩ := told_holds htold ht
  have hrun : run (step J dir) s (callOps envs o n (xs ++ [call])) =
      step J dir (run (step J dir) s (callOps envs o n xs))
        (callOp envs o (n + xs.length) call) := by
    rw [callOps_append, run_append]
    rfl
  rw [hrun]
  cases call with
  | insert c =>
    obtain ⟨_, _, -, -, -, -, hhistory⟩ := hlast
    rw [hhistory, Call.flushed, if_neg Bool.false_ne_true]
    split
    · rfl
    · rfl
  | flush done =>
    obtain ⟨t₂, ht₂, -, hhistory⟩ := hlast
    obtain rfl : t₂ = t₁ := Option.some.inj (ht₂.symm.trans ht₁)
    rw [hhistory, hro, hrw, hsidecar]
    cases done with
    | false => rfl
    | true => rfl

/-- Behind a flush that was done, the sidecar last written has the accepted entries of calls that go
at least up to this flush. -/
theorem told_written (h : AllTold J dir envs o n s (xs ++ .flush true :: ys))
    (ht : s.handle = some t) (hrw : t.readOnly = false) :
    ∃ zs, xs <+: zs ∧ zs <+: xs ++ .flush true :: ys ∧
      written (run (step J dir) s (callOps envs o n (xs ++ .flush true :: ys))).history =
        some { t.inner.sidecar with
          records := Keyed.upsertAll RecordEntry.recordId t.inner.sidecar.records
            (entriesOf (acceptedOf zs)) } := by
  -- by induction on the calls behind the flush, the last one first
  induction ys using List.reverseRecOn with
  | nil =>
    refine ⟨xs, List.prefix_rfl, List.prefix_append _ _, ?_⟩
    rw [told_concat h ht hrw, Call.flushed, if_pos rfl]
  | append_singleton ys call ih =>
    have hsplit : xs ++ .flush true :: (ys ++ [call]) = (xs ++ .flush true :: ys) ++ [call] := by
      rw [List.append_assoc, List.cons_append]
    rw [hsplit] at h ⊢
    rw [told_concat h ht hrw]
    split
    · exact ⟨_, List.prefix_append _ _, List.prefix_append _ _, rfl⟩
    · obtain ⟨zs, hxs, hzs, hwritten⟩ := ih (allTold_append.1 h).1
      exact ⟨zs, hxs, hzs.trans (List.prefix_append _ _), hwritten⟩

end Told

/-! ## A watch run is a session -/

section Watching

variable {J : SerdeJson} {dir : PathBuf} {envs : Nat → E.Env} {o : Nat → WriteOutcome}
  {Em : Embed M F} {root : PathBuf}

variable (J dir envs o Em root) in
theorem visit_traces (s : Watch M (Shelf E × List (Call F))) (v : Visit) :
    Traces J dir envs o s.writer
      (s.visit Em (recorded (shelfWriter J envs o)) root v).writer := by
  have hR := keeps_traces J dir envs o
  have hingest : Traces J dir envs o s.writer
      (s.ingest Em (recorded (shelfWriter J envs o)) root v).1.writer := by
    cases hcontent : v.content with
    | error e =>
      rw [Watch.ingest_unreadable hcontent]
      exact hR.refl _
    | ok text =>
      rw [Watch.ingest_readable hcontent]
      exact ingestChunks_keeps hR rfl
  cases hattempts : s.attempts v with
  | false =>
    rw [Watch.visit_skipped hattempts]
    exact hR.refl _
  | true =>
    rw [Watch.visit_attempted hattempts]
    rcases hres : s.ingest Em (recorded (shelfWriter J envs o)) root v with ⟨p, e | ⟨⟩⟩
    · rw [hres] at hingest
      exact hingest
    · rw [hres] at hingest
      exact hingest.trans (traces_flush J dir envs o p.writer)

variable (J dir envs o Em root) in
theorem run_traces (s : Watch M (Shelf E × List (Call F))) (vs : List Visit) :
    Traces J dir envs o s.writer
      (run (Watch.visit Em (recorded (shelfWriter J envs o)) root) s vs).writer := by
  induction vs generalizing s with
  | nil => exact (keeps_traces J dir envs o).refl _
  | cons v vs ih => exact (visit_traces J dir envs o Em root s v).trans (ih _)

end Watching

/-! ## The ids of a run -/

section Ids

variable {W Err : Type} {Em : Embed M F} {T : TenantWrite W F Err} {root : PathBuf}

/-- As long as the counter does not come round, no accepted insert of the rest of a run is below
it. -/
theorem le_key_of_run {s : Watch M (W × List (Call F))} {vs : List Visit}
    {new : List (InsertCall F)}
    (hnew : (run (Watch.visit Em (recorded T) root) s vs).inserts = s.inserts ++ new)
    (hroom : s.nextId.toNat + new.countP InsertCall.accepted ≤ 2 ^ 64) :
    ∀ c ∈ new, c.accepted = true → s.nextId.toNat ≤ c.key.toNat := by
  induction vs generalizing s new with
  | nil =>
    obtain rfl : new = [] := List.self_eq_append_right.1 hnew
    simp
  | cons v vs ih =>
    obtain ⟨first, hcalls, hconsecutive, -, hnext⟩ := Watch.visit_inserted Em T root s v
    obtain ⟨rest, hrest⟩ := Watch.inserts_prefix Em T root (s.visit Em (recorded T) root v) vs
    obtain rfl : first ++ rest = new := by
      rw [run_cons, ← hrest, hcalls, List.append_assoc] at hnew
      exact List.append_cancel_left hnew
    rw [List.countP_append] at hroom
    intro c hc haccepted
    rcases List.mem_append.1 hc with hfirst | hlater
    · exact hconsecutive.le_key _ _ (by omega) hfirst haccepted
    · have hpos : 0 < rest.countP InsertCall.accepted :=
        List.countP_pos_iff.2 ⟨c, hlater, haccepted⟩
      -- the counter is where it was, or behind the inserts of the visit
      rcases hnext with ⟨-, hnext⟩ | ⟨-, -, hnext⟩
      · have hcount : (advance InsertCall.accepted s.nextId first).toNat =
            s.nextId.toNat + first.countP InsertCall.accepted :=
          toNat_advance InsertCall.accepted (by omega)
        rw [← hnext] at hcount
        have hle := ih hrest.symm (by omega) c hlater haccepted
        omega
      · have hle := ih hrest.symm (by rw [hnext]; omega) c hlater haccepted
        rwa [hnext] at hle

theorem accepted_of_callsFrom {opts : IngestOptions} {next : UInt64}
    {cs : List ((String × Chunk) × List F)} {c : InsertCall F} (hc : c ∈ callsFrom opts next cs) :
    c.accepted = true := by
  induction cs generalizing next with
  | nil => cases hc
  | cons x cs ih =>
    rcases List.mem_cons.1 hc with rfl | hc
    · rfl
    · exact ih hc

/-- What a file that went through adds to the calls: its inserts, all accepted, and a flush. -/
theorem visit_calls {s : Watch M (W × List (Call F))} {v : Visit}
    (h : Watch.Ingests Em (recorded T) root s v) :
    ∃ m' us done, embedAll Em s.embedder (v.chunks.map Chunk.text) = some (m', us) ∧
      (s.visit Em (recorded T) root v).writer.2 = s.writer.2 ++
        ((callsFrom { s.opts with startId := s.nextId } s.nextId
          ((v.chunks.map fun c => (relpath root v.path, c)).zip us)).map .insert ++
            [.flush done]) := by
  have hok := (Watch.ingest_ends Em (recorded T) root h.1).1.2 h
  rw [Watch.visit_attempted h.1]
  rcases hres : s.ingest Em (recorded T) root v with ⟨p, e | ⟨⟩⟩
  · rw [hres] at hok
    cases hok
  cases hcontent : v.content with
  | error e =>
    rw [Watch.ingest_unreadable hcontent] at hres
    cases hres
  | ok text =>
    rw [Watch.ingest_readable hcontent] at hres
    obtain ⟨us, hembed, hinserts, -⟩ := ingestChunks_done hres
    obtain ⟨-, hcalls⟩ := insertAll_recorded (fun c hc => accepted_of_callsFrom hc) hinserts
    refine ⟨p.embedder, us, (T.flush p.writer.1).2.isOk, hembed, ?_⟩
    have hflush : ((recorded T).flush p.writer).1.2 =
        p.writer.2 ++ [.flush (T.flush p.writer.1).2.isOk] := rfl
    rw [← List.append_assoc]
    exact hflush.trans (congrArg (· ++ _) hcalls)

/-- The counter is at most as many ids further as inserts were accepted. -/
theorem nextId_le_of_run {s : Watch M (W × List (Call F))} {vs : List Visit}
    {new : List (InsertCall F)}
    (hnew : (run (Watch.visit Em (recorded T) root) s vs).inserts = s.inserts ++ new) :
    (run (Watch.visit Em (recorded T) root) s vs).nextId.toNat ≤
      s.nextId.toNat + new.countP InsertCall.accepted := by
  induction vs generalizing s new with
  | nil => exact Nat.le_add_right _ _
  | cons v vs ih =>
    obtain ⟨first, hcalls, -, -, hnext⟩ := Watch.visit_inserted Em T root s v
    obtain ⟨rest, hrest⟩ := Watch.inserts_prefix Em T root (s.visit Em (recorded T) root v) vs
    obtain rfl : first ++ rest = new := by
      rw [run_cons, ← hrest, hcalls, List.append_assoc] at hnew
      exact List.append_cancel_left hnew
    have hle := ih hrest.symm
    rw [run_cons, List.countP_append]
    rcases hnext with ⟨-, hnext⟩ | ⟨-, -, hnext⟩
    · have hadvance : (advance InsertCall.accepted s.nextId first).toNat ≤
          s.nextId.toNat + first.countP InsertCall.accepted := by
        rw [advance, UInt64.toNat_add, UInt64.toNat_ofNat']
        omega
      rw [hnext] at hle
      omega
    · rw [hnext] at hle
      omega

/-- A run changes no option but the first id. -/
theorem opts_of_run (Em : Embed M F) (T : TenantWrite W F Err) (root : PathBuf) (s : Watch M W)
    (vs : List Visit) : (run (Watch.visit Em T root) s vs).opts.tags = s.opts.tags ∧
      (run (Watch.visit Em T root) s vs).opts.shareable = s.opts.shareable := by
  induction vs generalizing s with
  | nil => exact ⟨rfl, rfl⟩
  | cons v vs ih =>
    obtain ⟨htags, hshareable⟩ := ih (s.visit Em T root v)
    have hone : (s.visit Em T root v).opts.tags = s.opts.tags ∧
        (s.visit Em T root v).opts.shareable = s.opts.shareable := by
      cases hattempts : s.attempts v with
      | false =>
        rw [Watch.visit_skipped hattempts]
        exact ⟨rfl, rfl⟩
      | true =>
        rw [Watch.visit_attempted hattempts]
        rcases s.ingest Em T root v with ⟨p, _ | _⟩
        · exact ⟨rfl, rfl⟩
        · exact ⟨rfl, rfl⟩
    exact ⟨htags.trans hone.1, hshareable.trans hone.2⟩

end Ids

/-! ## Files that went through -/

/-- The record and the vector are those of a chunk of the file: its tags, its provenance, its text,
and an answer of the embedder to it. -/
structure RowOf (Em : Embed M F) (opts : IngestOptions) (root file : PathBuf) (c : Chunk)
    (e : RecordEntry) (x : List F) : Prop where
  shareable : e.shareable = opts.shareable
  tags : e.tags = opts.tags ++ [srcTag (relpath root file) c]
  payload : e.payload = utf8 c.text
  vector : ∃ m m', Em.passage m c.text = (m', .ok x)

section Durable

variable {Em : Embed M F} {root : PathBuf} {envs : Nat → E.Env} {o : Nat → WriteOutcome}
  {opts : IngestOptions} {m : M} {ds : List Delivery}

/-- A watch run over the tenant of a session, before the first event. -/
def shelfWatch (opts : IngestOptions) (m : M) (s : Session E) (t : Tenant E) :
    Watch M (Shelf E × List (Call F)) :=
  Watch.start opts m (⟨0, s.files, t⟩, [])

/-- The accepted inserts of calls that go beyond those of a file: no other ones than those before,
those of the file and some that come later in the run. -/
theorem accepted_split {old later calls : List (Call F)} {rows : List (InsertCall F)} {done : Bool}
    (hrows : ∀ c ∈ rows, c.accepted = true) (hfile : old ++ rows.map .insert <+: calls)
    (hcalls : calls <+: old ++ (rows.map .insert ++ [.flush done]) ++ later) :
    ∃ more, acceptedOf calls = acceptedOf old ++ rows ++ more ∧ more ⊆ acceptedOf later := by
  obtain ⟨new, rfl⟩ := hfile
  have hsplit : old ++ (rows.map .insert ++ [.flush done]) ++ later =
      old ++ rows.map .insert ++ ([.flush done] ++ later) := by
    rw [List.append_assoc, List.append_assoc, List.append_assoc]
  rw [hsplit, List.prefix_append_right_inj] at hcalls
  refine ⟨acceptedOf new, ?_, ?_⟩
  · rw [acceptedOf_append, acceptedOf_append, acceptedOf_map_insert hrows]
  · obtain ⟨rest, hrest⟩ := hcalls
    have hacc := congrArg acceptedOf hrest
    rw [acceptedOf_append, acceptedOf_append, acceptedOf_flush, List.nil_append] at hacc
    rw [← hacc]
    exact List.subset_append_left _ _

/-- After calls that go beyond those of a file, each of its entries and each of its vectors is
found, when no insert accepted later has one of its ids. -/
theorem found_of_apart {old later calls : List (Call F)} {rows : List (InsertCall F)} {done : Bool}
    (hrows : ∀ c ∈ rows, c.accepted = true) (hnodup : (rows.map InsertCall.key).Nodup)
    (hapart : ∀ c ∈ acceptedOf later, c.key ∉ rows.map InsertCall.key)
    (hfile : old ++ rows.map .insert <+: calls)
    (hcalls : calls <+: old ++ (rows.map .insert ++ [.flush done]) ++ later) {c : InsertCall F}
    (hc : c ∈ rows) :
    (∀ rs, Keyed.find RecordEntry.recordId c.key (Keyed.upsertAll RecordEntry.recordId rs
      (entriesOf (acceptedOf calls))) = some c.record.entry) ∧
    ∀ vectors, replay vectors (vectorsOf (acceptedOf calls)) c.key = some c.embedding := by
  obtain ⟨more, hsplit, hmore⟩ := accepted_split hrows hfile hcalls
  rw [hsplit]
  constructor
  · intro rs
    have hentries : entriesOf (acceptedOf old ++ rows ++ more) =
        entriesOf (acceptedOf old) ++ entriesOf rows ++ entriesOf more := by
      rw [entriesOf, List.map_append, List.map_append]
      rfl
    rw [hentries]
    apply Keyed.find_upsertAll_of_apart RecordEntry.recordId rs (r := c.record.entry)
    · rw [map_recordId_entriesOf]
      exact hnodup
    · intro r hr
      obtain ⟨c', hc', rfl⟩ := List.mem_map.1 hr
      rw [map_recordId_entriesOf]
      exact hapart c' (hmore hc')
    · exact List.mem_map_of_mem hc
  · intro vectors
    have hvectors : vectorsOf (acceptedOf old ++ rows ++ more) =
        vectorsOf (acceptedOf old) ++ vectorsOf rows ++ vectorsOf more := by
      rw [vectorsOf, List.map_append, List.map_append]
      rfl
    rw [hvectors]
    apply replay_of_apart vectors (vectorsOf (acceptedOf old)) (w := (c.key, some c.embedding))
    · rw [map_fst_vectorsOf]
      exact hnodup
    · intro w hw
      obtain ⟨c', hc', rfl⟩ := List.mem_map.1 hw
      rw [map_fst_vectorsOf]
      exact hapart c' (hmore hc')
    · exact List.mem_map_of_mem hc

/-- The inserts of a file under the ids from `next`. -/
def fileCalls (opts : IngestOptions) (root : PathBuf) (next : UInt64) (v : Visit)
    (us : List (List F)) : List (InsertCall F) :=
  callsFrom { opts with startId := next } next
    ((v.chunks.map fun c => (relpath root v.path, c)).zip us)

theorem accepted_of_fileCalls {next : UInt64} {v : Visit} {us : List (List F)} {c : InsertCall F}
    (hc : c ∈ fileCalls opts root next v us) : c.accepted = true := accepted_of_callsFrom hc

theorem length_fileCalls {next : UInt64} {v : Visit} {us : List (List F)}
    (h : us.length = v.chunks.length) :
    (fileCalls opts root next v us).length = v.chunks.length := by
  rw [fileCalls, callsFrom_eq, List.length_mapIdx, List.length_zip, List.length_map, h,
    Nat.min_self]

/-- Where a file that went through stands in the calls of a run, and that no insert accepted after
it has one of its ids. -/
theorem fileCalls_apart (J : SerdeJson) (dir : PathBuf) (s : Watch M (Shelf E × List (Call F)))
    {v : Visit} {later : List Visit}
    (h : Watch.Ingests Em (recorded (shelfWriter J envs o)) root s v)
    {new : List (Call F)}
    (hnew : (run (Watch.visit Em (recorded (shelfWriter J envs o)) root) s (v :: later)).writer.2 =
      s.writer.2 ++ new)
    (hroom : s.nextId.toNat + (acceptedOf new).length ≤ 2 ^ 64) :
    ∃ us done rest, us.length = v.chunks.length ∧
      (∀ x ∈ (v.chunks.map Chunk.text).zip us, ∃ m m', Em.passage m x.1 = (m', .ok x.2)) ∧
      new = (fileCalls s.opts root s.nextId v us).map .insert ++ [.flush done] ++ rest ∧
      s.nextId.toNat + v.chunks.length ≤ 2 ^ 64 ∧
      ∀ c ∈ acceptedOf rest, c.key ∉ (fileCalls s.opts root s.nextId v us).map InsertCall.key := by
  obtain ⟨m', us, done, hembed, hcalls⟩ := visit_calls h
  obtain ⟨rest, hrest, -⟩ := run_traces J dir envs o Em root
    (s.visit Em (recorded (shelfWriter J envs o)) root v) later
  have hlen : us.length = v.chunks.length := by rw [embedAll_length hembed, List.length_map]
  have hall : new = (fileCalls s.opts root s.nextId v us).map .insert ++ [.flush done] ++ rest := by
    rw [run_cons, hrest, hcalls, List.append_assoc] at hnew
    exact (List.append_cancel_left hnew).symm
  have hcount : (fileCalls s.opts root s.nextId v us).length = v.chunks.length :=
    length_fileCalls hlen
  rw [hall, acceptedOf_append, acceptedOf_append, acceptedOf_flush, List.append_nil,
    acceptedOf_map_insert fun c hc => accepted_of_fileCalls hc, List.length_append, hcount] at hroom
  refine ⟨us, done, rest, hlen, embedAll_answers hembed, hall, by omega, ?_⟩
  intro c hc hmem
  obtain ⟨c', hc', hkey⟩ := List.mem_map.1 hmem
  have hpos : 0 < (acceptedOf rest).length := List.length_pos_of_mem hc
  have hnext := (Watch.visit_ingests h).2
  have hnat : (s.visit Em (recorded (shelfWriter J envs o)) root v).nextId.toNat =
      s.nextId.toNat + v.chunks.length := by
    rw [hnext, UInt64.toNat_add, UInt64.toNat_ofNat']
    omega
  -- the ids of the file end where the counter stands behind it
  have hlt : c'.key.toNat < s.nextId.toNat + v.chunks.length := by
    have hlength : ((v.chunks.map fun c => (relpath root v.path, c)).zip us).length =
        v.chunks.length := by rw [List.length_zip, List.length_map, hlen, Nat.min_self]
    have hbound := callsFrom_key hc' (by rw [hlength]; exact hroom.trans' (by omega))
    rw [hlength] at hbound
    exact hbound.2
  have hinserts : (run (Watch.visit Em (recorded (shelfWriter J envs o)) root)
      (s.visit Em (recorded (shelfWriter J envs o)) root v) later).inserts =
        (s.visit Em (recorded (shelfWriter J envs o)) root v).inserts ++ insertions rest := by
    rw [Watch.inserts, hrest, insertions_append]
    rfl
  obtain ⟨hin, haccepted⟩ := mem_acceptedOf.1 hc
  have hle := le_key_of_run hinserts (by rw [countP_insertions, hnat]; omega) c hin haccepted
  rw [hkey] at hlt
  omega

/-- A watch run over the read-write tenant of any session ends at any instant: the calls made on the
tenant are those of `before`, a flush that was done, and those of `since`. Every later open finds
the rows of each file that went through before this flush, under the ids that it was given, and
under ids that the run did not write the records and the vectors from before the run. -/
theorem watchTree_durable (Md : E.Model) {J : SerdeJson} (hJ : J.Laws) (dir : PathBuf)
    (ops : List (Op E)) {t : Tenant E} (ht : (runs J dir ops).handle = some t)
    (hrw : t.readOnly = false) {total : List (Call F)}
    (htotal : ((shelfWatch opts m (runs J dir ops) t).watchTree Em
      (recorded (shelfWriter J envs o)) root ds).writer.2 = total)
    (hids : opts.startId.toNat + (acceptedOf total).length ≤ 2 ^ 64)
    {before since : List (Call F)} (hmade : before ++ .flush true :: since <+: total)
    {env : OpenEnv E} {tenantId : TenantId} {embeddingDim : UInt32} {files' : Dir E}
    {t' : Tenant E} (hopen : Tenant.open J env dir
      (runs J dir (ops ++ callOps envs o 0 (before ++ .flush true :: since))).files tenantId
        embeddingDim = (files', .ok t')) :
    (∀ earlier v later s, ds.flatMap Watch.visits = earlier ++ v :: later →
      run (Watch.visit Em (recorded (shelfWriter J envs o)) root)
        (shelfWatch opts m (runs J dir ops) t) earlier = s →
      Watch.Ingests Em (recorded (shelfWriter J envs o)) root s v →
      s.writer.2.length + v.chunks.length ≤ before.length →
      ∀ k (hk : k < v.chunks.length), ∃ e x,
        t'.inner.sidecar.get ⟨UInt64.ofNat (s.nextId.toNat + k)⟩ = some e ∧
          Md.vectors t'.inner.index (UInt64.ofNat (s.nextId.toNat + k)) = some x ∧
          RowOf Em opts root v.path v.chunks[k] e x) ∧
    ∀ id, id ∉ (acceptedOf total).map InsertCall.key →
      t'.inner.sidecar.get ⟨id⟩ = t.inner.sidecar.get ⟨id⟩ ∧
        Md.vectors t'.inner.index id = Md.vectors t.inner.index id := by
  have hs : Inv Md J (runs J dir ops) := runs_inv hJ dir ops
  rw [Watch.watchTree_eq] at htotal
  -- the calls are operations of the session, and the open finds what they left
  obtain ⟨new, hcalls, -, hsession⟩ := run_traces J dir envs o Em root
    (shelfWatch opts m (runs J dir ops) t) (ds.flatMap Watch.visits)
  obtain rfl : total = new := htotal.symm.trans hcalls
  have htold : AllTold J dir envs o 0 (runs J dir ops) total :=
    (hsession (runs J dir ops) rfl ht).2.2
  obtain ⟨rest, hrest⟩ := hmade
  have hmade : before ++ .flush true :: since <+: total := ⟨rest, hrest⟩
  rw [← hrest] at htold
  have htold := (allTold_append.1 htold).1
  obtain ⟨saved, hbefore, hsaved, hwritten⟩ := told_written htold ht hrw
  obtain ⟨-, -, -, -, hlatest⟩ := told_holds htold ht
  have hdisk := (runs_inv (M := Md) hJ dir
    (ops ++ callOps envs o 0 (before ++ .flush true :: since))).disk
  have hrun : (runs J dir (ops ++ callOps envs o 0 (before ++ .flush true :: since))).history =
      (run (step J dir) (runs J dir ops)
        (callOps envs o 0 (before ++ .flush true :: since))).history := by rw [runs_append]
  rw [hrun] at hdisk
  obtain ⟨hsidecar, hvectors⟩ := reopen_finds hdisk hwritten hopen
  rw [hlatest, ← hs.vectors Md J ht] at hvectors
  have hrecords : t'.inner.sidecar.records = Keyed.upsertAll RecordEntry.recordId
      t.inner.sidecar.records (entriesOf (acceptedOf saved)) := by rw [hsidecar]
  refine ⟨?_, fun id hid => ?_⟩
  · rintro earlier v later s hvisits hearlier hingests hlength k hk
    -- the calls before the file, those of the file, and those after it
    obtain ⟨new, hnew, -⟩ := run_traces J dir envs o Em root s (v :: later)
    rw [hvisits, run_append, hearlier, hnew] at htotal
    have hnext : s.nextId.toNat ≤ opts.startId.toNat + (acceptedOf s.writer.2).length := by
      have hinserts : (run (Watch.visit Em (recorded (shelfWriter J envs o)) root)
          (shelfWatch opts m (runs J dir ops) t) earlier).inserts =
            (shelfWatch opts m (runs J dir ops) t).inserts ++ s.inserts := by
        rw [hearlier]
        rfl
      have hle := nextId_le_of_run hinserts
      rw [hearlier, Watch.inserts, countP_insertions] at hle
      exact hle
    have hroom : s.nextId.toNat + (acceptedOf new).length ≤ 2 ^ 64 := by
      rw [← htotal, acceptedOf_append, List.length_append] at hids
      omega
    obtain ⟨us, done, rest, hlen, hanswers, hall, hfits, hapart⟩ :=
      fileCalls_apart J dir s hingests hnew hroom
    have hcalls : total = s.writer.2 ++
        ((fileCalls s.opts root s.nextId v us).map .insert ++ [.flush done]) ++ rest := by
      rw [← htotal, hall]
      simp only [List.append_assoc]
    have hfile : s.writer.2 ++ (fileCalls s.opts root s.nextId v us).map .insert <+: before := by
      have hstart : s.writer.2 ++ (fileCalls s.opts root s.nextId v us).map .insert <+: total := by
        rw [hcalls]
        exact ⟨[.flush done] ++ rest, by simp only [List.append_assoc]⟩
      apply List.prefix_of_prefix_length_le hstart ((List.prefix_append _ _).trans hmade)
      rw [List.length_append, List.length_map, length_fileCalls hlen]
      exact hlength
    have hpairs : ((v.chunks.map fun c => (relpath root v.path, c)).zip us).length =
        v.chunks.length := by rw [List.length_zip, List.length_map, hlen, Nat.min_self]
    have hnodup : ((fileCalls s.opts root s.nextId v us).map InsertCall.key).Nodup :=
      nodup_callsFrom _ (by rw [hpairs]; exact hfits)
    have hcall := mem_callsFrom { s.opts with startId := s.nextId } s.nextId
      (by rw [hpairs]; exact hk)
    have hus : k < us.length := hlen ▸ hk
    rw [List.getElem_zip, List.getElem_map] at hcall
    have hrecord := (found_of_apart (fun c hc => accepted_of_fileCalls hc) hnodup hapart
      (hfile.trans hbefore) (hcalls ▸ hsaved.trans hmade) hcall).1 t.inner.sidecar.records
    have hvector := (found_of_apart (fun c hc => accepted_of_fileCalls hc) hnodup hapart
      (hfile.trans (List.prefix_append _ _)) (hcalls ▸ hmade) hcall).2 (Md.vectors t.inner.index)
    obtain ⟨htags, hshareable⟩ := opts_of_run Em (recorded (shelfWriter J envs o)) root
      (shelfWatch opts m (runs J dir ops) t) earlier
    rw [hearlier] at htags hshareable
    rw [← hrecords] at hrecord
    rw [← hvectors] at hvector
    refine ⟨_, us[k], hrecord, hvector, ?_⟩
    have htext : (v.chunks[k].text, us[k]) ∈ (v.chunks.map Chunk.text).zip us := by
      rw [List.mem_iff_getElem]
      exact ⟨k, by rw [List.length_zip, List.length_map]; omega,
        by rw [List.getElem_zip, List.getElem_map]⟩
    exact ⟨hshareable, congrArg (· ++ _) htags, rfl, hanswers _ htext⟩
  · have hnot : ∀ {calls : List (Call F)}, calls <+: total →
        id ∉ (acceptedOf calls).map InsertCall.key := by
      intro calls hpre hmem
      obtain ⟨c, hc, rfl⟩ := List.mem_map.1 hmem
      exact hid (List.mem_map_of_mem (acceptedOf_subset hpre hc))
    refine ⟨?_, ?_⟩
    · rw [MetadataSidecar.get, hrecords]
      exact Keyed.find_upsertAll_of_not_mem RecordEntry.recordId _
        (map_recordId_entriesOf _ ▸ hnot (hsaved.trans hmade))
    · rw [hvectors]
      exact replay_of_not_mem _ (map_fst_vectorsOf _ ▸ hnot hmade)

end Durable

section Notes

open Reference

/-- What the loop sees of the first save. -/
def firstEdit : Visit :=
  ⟨⟨true, ["home", "notes", "a.md"]⟩, 0, 5 * 10 ^ 6, true, .ok "first\n\nsecond\n".toList⟩

/-- A note is saved, and then another one whose second paragraph cannot be embedded. -/
def edits : List Delivery :=
  [save "a.md" 0 5 (.ok "first\n\nsecond\n"), save "b.md" 2000 2005 (.ok "third\n\nfourth\n")]

/-- The calls of the watch run over these events, into a new tenant. -/
def editCalls : List (Call Int) :=
  ((shelfWatch markdown [true, true, true, false] (runs json home openVault) vault.2).watchTree
    scripted (recorded (shelfWriter json (fun _ => false) fun _ => .done)) notes edits).writer.2

/-- The process dies after the third insert, and the directory opens again. The second paragraph of
the first note is under the id 1. -/
theorem watchTree_durable_example : ∃ files' t' e x,
    Tenant.open json quiet home
      (runs json home (openVault ++ callOps (fun _ => false) (fun _ => .done) 0 editCalls)).files
        .zero 1 = (files', .ok t') ∧
      t'.inner.sidecar.get ⟨1⟩ = some e ∧ model.vectors t'.inner.index 1 = some x ∧
      RowOf scripted markdown notes ⟨true, ["home", "notes", "a.md"]⟩
        ⟨"second".toList, 3, 3⟩ e x := by
  have hcalls : editCalls.take 2 ++ .flush true :: editCalls.drop 3 = editCalls := by
    decide +kernel
  have hids : markdown.startId.toNat + (acceptedOf editCalls).length ≤ 2 ^ 64 := by
    decide +kernel
  have hopens : (Tenant.open json quiet home (runs json home (openVault ++
      callOps (fun _ => false) (fun _ => .done) 0 editCalls)).files .zero 1).2.isOk = true := by
    decide +kernel
  rcases hopen : Tenant.open json quiet home (runs json home (openVault ++
    callOps (fun _ => false) (fun _ => .done) 0 editCalls)).files .zero 1 with ⟨files', e | t'⟩
  · rw [hopen] at hopens
    cases hopens
  rw [← hcalls] at hopen
  obtain ⟨hrows, -⟩ := watchTree_durable model json_laws home openVault handle_openVault rfl
    (rfl : _ = editCalls) hids (hcalls ▸ List.prefix_rfl) hopen
  have hingests : Watch.Ingests scripted (recorded (shelfWriter json (fun _ => false)
      fun _ => .done)) notes
        (shelfWatch markdown [true, true, true, false] (runs json home openVault) vault.2)
          firstEdit := by
    decide +kernel
  have hchunks : firstEdit.chunks =
      [⟨"first".toList, 1, 1⟩, ⟨"second".toList, 3, 3⟩] := by decide +kernel
  have hk : 1 < firstEdit.chunks.length := by
    rw [hchunks]
    decide
  obtain ⟨e, x, he, hx, hrow⟩ := hrows [] firstEdit _ _ rfl rfl hingests
    (by rw [hchunks]; decide +kernel) 1 hk
  have hsecond : firstEdit.chunks[1] = ⟨"second".toList, 3, 3⟩ := by
    simp only [hchunks]
    rfl
  rw [hsecond] at hrow
  exact ⟨files', t', e, x, hcalls ▸ hopen, he, hx, hrow⟩

end Notes

end SkegRigging.Ingest
