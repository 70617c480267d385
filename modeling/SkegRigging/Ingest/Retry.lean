import SkegRigging.Adapter.TenantSpec
import SkegRigging.Ingest.Tree
import SkegRigging.Library.Replay

/-!
# A failed ingest and its retry

A run that fails at some file or chunk is compared with the run that does not fail: the same
embedder, writer and files, but every call that failed succeeds (`EmbedExtends`, `WriterExtends`,
`ReadExtends`). The inserts of the failed run are the first ones of the complete run, and it has not
flushed (`ingestFiles_cut`). In a store that overwrites by id, a complete run writes each id it
allocates last, so a failed run before it leaves no trace (`ingestFiles_store`).
-/

set_option autoImplicit false

namespace SkegRigging.Ingest

variable {M W F Err : Type}

/-! ## The run without failures -/

/-- `E'` gives what `E` gives wherever `E` succeeds. -/
def EmbedExtends (E E' : Embed M F) : Prop :=
  ∀ m text m' v, E.passage m text = (m', .ok v) → E'.passage m text = (m', .ok v)

/-- `T'` does what `T` does wherever `T` accepts an insert. -/
def WriterExtends (T T' : TenantWrite W F Err) : Prop :=
  ∀ w id v shareable tags payload w', T.insert w id v shareable tags payload = (w', .ok ()) →
    T'.insert w id v shareable tags payload = (w', .ok ())

/-- `read'` reads what `read` reads. -/
def ReadExtends (read read' : PathBuf → Except IoError Text) : Prop :=
  ∀ path text, read path = .ok text → read' path = .ok text

/-- The arguments of an insert. -/
def InsertCall.args (c : InsertCall F) : InsertCall F := { c with accepted := true }

/-- What a failed run made of the calls of the complete run: the inserts made, one that the writer
refused, if that was the failure, and those that were never made. -/
structure Stops (made last rest : List (InsertCall F)) : Prop where
  accepted : ∀ c ∈ made ++ rest, c.accepted = true
  last : last = [] ∨ ∃ c cs, rest = c :: cs ∧ last = [{ c with accepted := false }]

/-- The calls of a failed run and of the complete run, after the calls `base` of both. -/
def CutShort (base calls calls' : List (Call F)) : Prop :=
  ∃ made last rest, calls = base ++ (made ++ last).map .insert ∧
    calls' = base ++ (made ++ rest).map .insert ∧ Stops made last rest

/-- The inserts of `calls` are the first ones of `calls'`, and there is no flush among them. -/
structure FailedPrefix (calls calls' : List (Call F)) : Prop where
  unflushed : ∀ done, Call.flush done ∉ calls
  made : ((insertions calls).filter InsertCall.accepted) <+: insertions calls'
  attempted : (insertions calls).map InsertCall.args <+: (insertions calls').map InsertCall.args

theorem CutShort.prepend {base calls calls' : List (Call F)} {new : List (InsertCall F)}
    (hnew : ∀ c ∈ new, c.accepted = true) (h : CutShort (base ++ new.map .insert) calls calls') :
    CutShort base calls calls' := by
  obtain ⟨made, last, rest, rfl, rfl, hstops⟩ := h
  refine ⟨new ++ made, last, rest, by simp, by simp, ?_, hstops.last⟩
  intro c hc
  rw [List.append_assoc] at hc
  rcases List.mem_append.1 hc with hold | hrest
  · exact hnew c hold
  · exact hstops.accepted c hrest

/-- What the complete run adds after the failure does not matter. -/
theorem CutShort.append {base calls calls' : List (Call F)} {new : List (InsertCall F)}
    (hnew : ∀ c ∈ new, c.accepted = true) (h : CutShort base calls calls') :
    CutShort base calls (calls' ++ new.map .insert) := by
  obtain ⟨made, last, rest, rfl, rfl, hstops⟩ := h
  refine ⟨made, last, rest ++ new, rfl, by simp, ?_, ?_⟩
  · intro c hc
    rw [← List.append_assoc] at hc
    rcases List.mem_append.1 hc with hold | hadded
    · exact hstops.accepted c hold
    · exact hnew c hadded
  · rcases hstops.last with hnone | ⟨c, cs, rfl, hlast⟩
    · exact Or.inl hnone
    · exact Or.inr ⟨c, cs ++ new, rfl, hlast⟩

/-- The failed run made no call. -/
theorem CutShort.refl (base : List (Call F)) : CutShort base base base :=
  ⟨[], [], [], by simp, by simp, by simp, Or.inl rfl⟩

/-- The failed run made one call, which the writer refused. -/
theorem CutShort.refused (base : List (Call F)) {c : InsertCall F} (hc : c.accepted = true) :
    CutShort base (base ++ [.insert { c with accepted := false }]) (base ++ [.insert c]) :=
  ⟨[], [_], [c], rfl, rfl, by simp [hc], Or.inr ⟨c, [], rfl, rfl⟩⟩

theorem insertions_map_insert (calls : List (InsertCall F)) :
    insertions (calls.map Call.insert) = calls := by
  rw [insertions, List.filterMap_map]
  exact List.filterMap_some

/-- A run that was cut short before its flush is a failed prefix of the complete one. -/
theorem CutShort.failedPrefix {calls calls' : List (Call F)} (h : CutShort [] calls calls')
    (done : Bool) : FailedPrefix calls (calls' ++ [.flush done]) := by
  obtain ⟨made, last, rest, rfl, rfl, hstops⟩ := h
  have hmade : made.filter InsertCall.accepted = made := by
    rw [List.filter_eq_self]
    exact fun c hc => hstops.accepted c (List.mem_append_left _ hc)
  refine ⟨?_, ?_, ?_⟩
  · intro done hmem
    simp at hmem
  · rw [List.nil_append, List.nil_append, insertions_append, insertions_map_insert,
      insertions_map_insert, insertions_flush, List.append_nil, List.filter_append, hmade]
    rcases hstops.last with rfl | ⟨c, cs, -, rfl⟩
    · simp
    · simp
  · rw [List.nil_append, List.nil_append, insertions_append, insertions_map_insert,
      insertions_map_insert, insertions_flush, List.append_nil, List.map_append, List.map_append]
    rcases hstops.last with rfl | ⟨c, cs, rfl, rfl⟩
    · simp
    · simp [InsertCall.args]

/-! ## The loops of the two runs -/

section Loops

variable {E E' : Embed M F} {T T' : TenantWrite W F Err} {opts : IngestOptions}
  {read read' : PathBuf → Except IoError Text}

/-- A chunk that is taken adds one accepted insert. -/
theorem ingestChunk_ok {rel : String} {p q : Pipeline M (W × List (Call F))} {c : Chunk}
    (h : ingestChunk E (recorded T) opts rel p c = (q, .ok ())) :
    ∃ m v w, E.passage p.embedder c.text = (m, .ok v) ∧
      T.insert p.writer.1 ⟨p.stats.nextId⟩ v opts.shareable (opts.tags ++ [srcTag rel c])
        (utf8 c.text) = (w, .ok ()) ∧
      q = ⟨m, (w, p.writer.2 ++ [.insert (chunkCall opts p.stats.nextId ((rel, c), v))]),
        p.stats.addChunk c⟩ := by
  rcases ingestChunk_ends E (recorded T) opts rel h with ⟨_, _, -, -, hr⟩ |
    ⟨_, _, _, _, -, -, -, hr⟩ | ⟨m, v, w, hpassage, hinsert, rfl, -⟩
  · cases hr
  · cases hr
  · obtain ⟨hw, hcalls⟩ := recorded_insert_ends hinsert
    refine ⟨m, v, w.1, hpassage, hw, ?_⟩
    rw [Pipeline.mk.injEq]
    exact ⟨rfl, Prod.ext rfl hcalls, rfl⟩

/-- A chunk that fails adds nothing, or one insert that the writer refused. -/
theorem ingestChunk_error {rel : String} {p q : Pipeline M (W × List (Call F))} {c : Chunk}
    {e : IngestError Err} (h : ingestChunk E (recorded T) opts rel p c = (q, .error e)) :
    q.writer.2 = p.writer.2 ∨ ∃ m v, E.passage p.embedder c.text = (m, .ok v) ∧
      q.writer.2 = p.writer.2 ++
        [.insert { chunkCall opts p.stats.nextId ((rel, c), v) with accepted := false }] := by
  rcases ingestChunk_ends E (recorded T) opts rel h with ⟨m, message, -, rfl, -⟩ |
    ⟨m, v, w, e', hpassage, hinsert, rfl, -⟩ | ⟨_, _, _, -, -, -, hr⟩
  · exact Or.inl rfl
  · obtain ⟨-, hcalls⟩ := recorded_insert_ends hinsert
    exact Or.inr ⟨m, v, hpassage, hcalls⟩
  · cases hr

/-- A file that is ingested adds accepted inserts only. -/
theorem ingestChunks_ok {rel : String} {p q : Pipeline M (W × List (Call F))} {cs : List Chunk}
    (h : ingestChunks E (recorded T) opts rel p cs = (q, .ok ())) :
    ∃ new : List (InsertCall F), q.writer.2 = p.writer.2 ++ new.map .insert ∧
      ∀ c ∈ new, c.accepted = true := by
  induction cs generalizing p with
  | nil =>
    simp only [ingestChunks, Prod.mk.injEq, and_true] at h
    exact ⟨[], by simp [h], by simp⟩
  | cons c cs ih =>
    rcases ingestChunks_cons E (recorded T) opts rel h with ⟨e, -, he⟩ | ⟨p₁, hp₁, hrest⟩
    · cases he
    · obtain ⟨m, v, w, -, -, rfl⟩ := ingestChunk_ok hp₁
      obtain ⟨new, hq, hnew⟩ := ih hrest
      refine ⟨chunkCall opts p.stats.nextId ((rel, c), v) :: new, ?_, ?_⟩
      · rw [hq, List.map_cons, List.append_assoc]
        rfl
      · intro d hd
        rcases List.mem_cons.1 hd with rfl | hd
        · rfl
        · exact hnew d hd

theorem ingestFile_ok {W : Type} {T : TenantWrite W F Err} {root file : PathBuf}
    {content : Except IoError Text} {p q : Pipeline M W}
    (h : ingestFile E T opts root file content p = (q, .ok ())) :
    ∃ text, content = .ok text ∧
      ingestChunks E T opts (relpath root file) p (chunksOf file text) = (q, .ok ()) := by
  cases content with
  | error e => simp [ingestFile] at h
  | ok text => exact ⟨text, rfl, h⟩

/-- The first file of a loop that ends well, and the loop over the others. -/
theorem ingestFiles_cons_ok {W : Type} {T : TenantWrite W F Err} {root file : PathBuf}
    {files : List PathBuf} {p q : Pipeline M W} {seen : List IngestStats}
    (h : ingestFiles E T opts root read p (file :: files) = (q, seen, .ok ())) :
    ∃ p₁ seen₁, ingestFile E T opts root file (read file) p = (p₁, .ok ()) ∧
      ingestFiles E T opts root read { p₁ with stats := p₁.stats.addFile } files =
        (q, seen₁, .ok ()) := by
  rcases ingestFiles_cons E T opts root read h with ⟨e, -, he⟩ | hgoesOn
  · cases he
  · exact hgoesOn

theorem ingestFiles_ok {root : PathBuf} {p q : Pipeline M (W × List (Call F))}
    {files : List PathBuf} {seen : List IngestStats}
    (h : ingestFiles E (recorded T) opts root read p files = (q, seen, .ok ())) :
    ∃ new : List (InsertCall F), q.writer.2 = p.writer.2 ++ new.map .insert ∧
      ∀ c ∈ new, c.accepted = true := by
  induction files generalizing p seen with
  | nil =>
    simp only [ingestFiles, Prod.mk.injEq, and_true] at h
    exact ⟨[], by simp [h.1], by simp⟩
  | cons file files ih =>
    obtain ⟨p₁, seen₁, hfile, hrest⟩ := ingestFiles_cons_ok h
    obtain ⟨text, -, hchunks⟩ := ingestFile_ok hfile
    obtain ⟨new₁, hq₁, hnew₁⟩ := ingestChunks_ok hchunks
    obtain ⟨new₂, hq₂, hnew₂⟩ := ih hrest
    refine ⟨new₁ ++ new₂, ?_, ?_⟩
    · rw [hq₂, hq₁, List.map_append, List.append_assoc]
    · intro c hc
      rcases List.mem_append.1 hc with hc | hc
      · exact hnew₁ c hc
      · exact hnew₂ c hc

/-- Where the loop over the chunks of a file ends well without failures, with them it does the same
or it is cut short. -/
theorem ingestChunks_cut (hE : EmbedExtends E E') (hT : WriterExtends T T') {rel : String}
    {p q q' : Pipeline M (W × List (Call F))} {cs : List Chunk}
    {r : Except (IngestError Err) Unit}
    (h : ingestChunks E (recorded T) opts rel p cs = (q, r))
    (h' : ingestChunks E' (recorded T') opts rel p cs = (q', .ok ())) :
    (r = .ok () ∧ q = q') ∨
      ((∃ e, r = .error e) ∧ CutShort p.writer.2 q.writer.2 q'.writer.2) := by
  induction cs generalizing p with
  | nil =>
    simp only [ingestChunks, Prod.mk.injEq, and_true] at h h'
    exact Or.inl ⟨h.2.symm, h.1 ▸ h'⟩
  | cons c cs ih =>
    rcases ingestChunks_cons E' (recorded T') opts rel h' with ⟨e, -, he⟩ | ⟨p₁', hp₁', hrest'⟩
    · cases he
    · obtain ⟨m', v', w', hpassage', hinsert', rfl⟩ := ingestChunk_ok hp₁'
      rcases ingestChunks_cons E (recorded T) opts rel h with ⟨e, hp₁, rfl⟩ | ⟨p₁, hp₁, hrest⟩
      · -- the failure strikes at this chunk
        obtain ⟨new, hq', hnew⟩ := ingestChunks_ok hrest'
        refine Or.inr ⟨⟨e, rfl⟩, ?_⟩
        rw [hq']
        apply CutShort.append hnew
        rcases ingestChunk_error hp₁ with hsame | ⟨m, v, hpassage, hrefused⟩
        · rw [hsame]
          have hone : p.writer.2 ++ [Call.insert (chunkCall opts p.stats.nextId ((rel, c), v'))] =
              p.writer.2 ++ [chunkCall opts p.stats.nextId ((rel, c), v')].map .insert := rfl
          rw [hone]
          exact (CutShort.refl _).append (by simp [chunkCall])
        · have hm := hE _ _ _ _ hpassage
          rw [hpassage'] at hm
          simp only [Prod.mk.injEq, Except.ok.injEq] at hm
          obtain ⟨-, rfl⟩ := hm
          rw [hrefused]
          exact CutShort.refused _ rfl
      · -- the chunk is taken in both runs
        obtain ⟨m, v, w, hpassage, hinsert, rfl⟩ := ingestChunk_ok hp₁
        have hm := hE _ _ _ _ hpassage
        rw [hpassage'] at hm
        simp only [Prod.mk.injEq, Except.ok.injEq] at hm
        obtain ⟨rfl, rfl⟩ := hm
        have hw := hT _ _ _ _ _ _ _ hinsert
        rw [hinsert'] at hw
        simp only [Prod.mk.injEq, and_true] at hw
        subst hw
        rcases ih hrest hrest' with hdone | ⟨herror, hcut⟩
        · exact Or.inl hdone
        · refine Or.inr ⟨herror, ?_⟩
          have haccepted : ∀ d ∈ [chunkCall opts p.stats.nextId ((rel, c), v')],
              d.accepted = true := by simp [chunkCall]
          exact CutShort.prepend haccepted hcut

theorem ingestFiles_cut (hE : EmbedExtends E E') (hT : WriterExtends T T')
    (hread : ReadExtends read read') {root : PathBuf} {p q q' : Pipeline M (W × List (Call F))}
    {files : List PathBuf} {seen seen' : List IngestStats} {r : Except (IngestError Err) Unit}
    (h : ingestFiles E (recorded T) opts root read p files = (q, seen, r))
    (h' : ingestFiles E' (recorded T') opts root read' p files = (q', seen', .ok ())) :
    (r = .ok () ∧ q = q') ∨
      ((∃ e, r = .error e) ∧ CutShort p.writer.2 q.writer.2 q'.writer.2) := by
  induction files generalizing p seen seen' with
  | nil =>
    simp only [ingestFiles, Prod.mk.injEq] at h h'
    exact Or.inl ⟨h.2.2.symm, h.1 ▸ h'.1⟩
  | cons file files ih =>
    obtain ⟨p₁', seen₁', hfile', hrest'⟩ := ingestFiles_cons_ok h'
    obtain ⟨text, htext', hchunks'⟩ := ingestFile_ok hfile'
    obtain ⟨new₂, hq', hnew₂⟩ := ingestFiles_ok hrest'
    rcases ingestFiles_cons E (recorded T) opts root read h with
      ⟨e, hp₁, rfl⟩ | ⟨p₁, seen₁, hp₁, hrest⟩
    · -- the failure strikes in this file
      refine Or.inr ⟨⟨e, rfl⟩, ?_⟩
      rw [hq']
      apply CutShort.append hnew₂
      cases htext : read file with
      | error ioError =>
        rw [htext] at hp₁
        simp only [ingestFile, Prod.mk.injEq] at hp₁
        obtain ⟨new₁, hq₁, hnew₁⟩ := ingestChunks_ok hchunks'
        rw [← hp₁.1, hq₁]
        exact (CutShort.refl _).append hnew₁
      | ok text₁ =>
        have hsame := hread _ _ htext
        rw [htext'] at hsame
        cases hsame
        rw [htext] at hp₁
        rcases ingestChunks_cut hE hT hp₁ hchunks' with ⟨hok, -⟩ | ⟨-, hcut⟩
        · simp at hok
        · exact hcut
    · -- the file is ingested in both runs
      obtain ⟨text₁, htext, hchunks⟩ := ingestFile_ok hp₁
      have hsame := hread _ _ htext
      rw [htext'] at hsame
      cases hsame
      rcases ingestChunks_cut hE hT hchunks hchunks' with ⟨-, rfl⟩ | ⟨⟨e, he⟩, -⟩
      · obtain ⟨new₁, hq₁, hnew₁⟩ := ingestChunks_ok hchunks
        rcases ih hrest hrest' with hdone | ⟨herror, hcut⟩
        · exact Or.inl hdone
        · refine Or.inr ⟨herror, CutShort.prepend hnew₁ ?_⟩
          rw [← hq₁]
          exact hcut
      · simp at he

end Loops

/-! ## The store after a failed run -/

/-- The write of an insert to the map from ids to records; a store makes a record of the arguments
by `keep`. -/
def InsertCall.write {R : Type} (keep : List F → Bool → List String → Bytes → R)
    (c : InsertCall F) : RecordId × Option R :=
  (c.recordId, some (keep c.embedding c.shareable c.tags c.payload))

/-- `T` is a store that follows the contract: `get` reads its map from ids to records, an insert
overwrites its id, a refused insert leaves the other ids alone, and a flush changes no record. -/
structure StoreContract {R : Type} (T : TenantWrite W F Err)
    (keep : List F → Bool → List String → Bytes → R) (get : W → RecordId → Option R) : Prop where
  insert_ok : ∀ w id v shareable tags payload w',
    T.insert w id v shareable tags payload = (w', .ok ()) →
      get w' = Function.update (get w) id (some (keep v shareable tags payload))
  insert_error : ∀ w id v shareable tags payload w' e,
    T.insert w id v shareable tags payload = (w', .error e) → ∀ k, k ≠ id → get w' k = get w k
  flush : ∀ w w', T.flush w = (w', .ok ()) → get w' = get w

/-- What a successful call of `E` returns depends on the text only. -/
def TextOnly (E : Embed M F) (vec : Text → List F) : Prop :=
  ∀ m text m' v, E.passage m text = (m', .ok v) → v = vec text

/-- The writes of a run over chunks. -/
def chunksLog {R : Type} (opts : IngestOptions) (vec : Text → List F)
    (keep : List F → Bool → List String → Bytes → R) (next : UInt64)
    (cs : List (String × Chunk)) : List (RecordId × Option R) :=
  (callsFrom opts next (cs.map fun c => (c, vec c.2.text))).map (InsertCall.write keep)

/-- How a loop with the writes `log` changes a map: it makes them all, or it fails and touches only
ids that `log` writes to. -/
structure Wrote {R : Type} (log : List (RecordId × Option R)) (done : Bool)
    (before after : RecordId → Option R) : Prop where
  complete : done = true → after = Replay.replay before log
  frame : ∀ id, Replay.writesTo id log = [] → after id = before id

section Store

open Replay

variable {R : Type} {E : Embed M F} {T : TenantWrite W F Err} {opts : IngestOptions}
  {keep : List F → Bool → List String → Bytes → R} {get : W → RecordId → Option R}
  {vec : Text → List F} {read : PathBuf → Except IoError Text}
  {log log' : List (RecordId × Option R)} {done : Bool} {before mid after : RecordId → Option R}

theorem chunksLog_append (next : UInt64) (xs ys : List (String × Chunk)) :
    chunksLog opts vec keep next (xs ++ ys) =
      chunksLog opts vec keep next xs ++
        chunksLog opts vec keep (next + UInt64.ofNat xs.length) ys := by
  rw [chunksLog, List.map_append, callsFrom_append, List.map_append, List.length_map]
  rfl

theorem chunksLog_cons (next : UInt64) (c : String × Chunk) (cs : List (String × Chunk)) :
    chunksLog opts vec keep next (c :: cs) =
      (chunkCall opts next (c, vec c.2.text)).write keep ::
        chunksLog opts vec keep (next + 1) cs := rfl

/-- A write before a loop that makes the rest. -/
theorem Wrote.cons {w : RecordId × Option R}
    (h : Wrote log done (Function.update before w.1 w.2) after) :
    Wrote (w :: log) done before after := by
  refine ⟨fun hdone => h.complete hdone, ?_⟩
  intro id hid
  have hw : w.1 ≠ id := by
    rintro rfl
    simp [writesTo] at hid
  have hlog : writesTo id log = [] := by
    simpa [writesTo, hw] using hid
  rw [h.frame id hlog, Function.update_of_ne hw.symm]

/-- A complete loop before another one. -/
theorem Wrote.append (h : Wrote log true before mid) (h' : Wrote log' done mid after) :
    Wrote (log ++ log') done before after := by
  refine ⟨?_, ?_⟩
  · intro hdone
    rw [h'.complete hdone, h.complete rfl, replay_append]
  · intro id hid
    rw [writesTo_append, List.append_eq_nil_iff] at hid
    rw [h'.frame id hid.2, h.frame id hid.1]

/-- A loop that fails before it comes to the writes `log'`. -/
theorem Wrote.cut (h : Wrote log false before after) (log' : List (RecordId × Option R)) :
    Wrote (log ++ log') false before after := by
  refine ⟨fun hdone => by simp at hdone, ?_⟩
  intro id hid
  rw [writesTo_append, List.append_eq_nil_iff] at hid
  exact h.frame id hid.1

/-- A loop that fails before its first write. -/
theorem Wrote.refl (log : List (RecordId × Option R)) (before : RecordId → Option R) :
    Wrote log false before before :=
  ⟨fun hdone => by simp at hdone, fun _ _ => rfl⟩

theorem ingestChunks_wrote (hT : StoreContract T keep get) (hE : TextOnly E vec) {rel : String}
    {p q : Pipeline M W} {cs : List Chunk} {r : Except (IngestError Err) Unit}
    (h : ingestChunks E T opts rel p cs = (q, r)) :
    Wrote (chunksLog opts vec keep p.stats.nextId (cs.map fun c => (rel, c))) r.isOk
      (get p.writer) (get q.writer) ∧
      (r.isOk = true → q.stats.nextId = p.stats.nextId + UInt64.ofNat cs.length) := by
  induction cs generalizing p with
  | nil =>
    simp only [ingestChunks, Prod.mk.injEq] at h
    obtain ⟨rfl, rfl⟩ := h
    exact ⟨⟨fun _ => rfl, fun _ _ => rfl⟩, fun _ => by simp⟩
  | cons c cs ih =>
    rw [List.map_cons, chunksLog_cons]
    rcases ingestChunks_cons E T opts rel h with ⟨e, hstep, rfl⟩ | ⟨p₁, hstep, hrest⟩
    · rcases ingestChunk_ends E T opts rel hstep with ⟨m, message, -, rfl, -⟩ |
        ⟨m, v, w, e', -, hinsert, rfl, -⟩ | ⟨_, _, _, -, -, -, hr⟩
      · exact ⟨Wrote.refl _ _, fun hok => by simp [Except.isOk, Except.toBool] at hok⟩
      · refine ⟨⟨fun hok => by simp [Except.isOk, Except.toBool] at hok, ?_⟩,
          fun hok => by simp [Except.isOk, Except.toBool] at hok⟩
        -- a refused insert can only touch its own id, which the log writes to
        intro id hid
        apply hT.insert_error _ _ _ _ _ _ _ _ hinsert
        rintro rfl
        simp [writesTo, InsertCall.write, chunkCall] at hid
      · cases hr
    · rcases ingestChunk_ends E T opts rel hstep with ⟨_, _, -, -, hr⟩ |
        ⟨_, _, _, _, -, -, -, hr⟩ | ⟨m, v, w, hpassage, hinsert, rfl, -⟩
      · cases hr
      · cases hr
      · obtain rfl := hE _ _ _ _ hpassage
        obtain ⟨hwrote, hnext⟩ := ih hrest
        refine ⟨Wrote.cons ?_, ?_⟩
        · have hget := hT.insert_ok _ _ _ _ _ _ _ hinsert
          dsimp only at hwrote
          rw [hget] at hwrote
          exact hwrote
        · intro hok
          rw [hnext hok, List.length_cons, UInt64.ofNat_add, IngestStats.addChunk,
            UInt64.add_assoc, UInt64.add_comm 1]
          rfl

/-- A run over files whose texts, where they can be read, are those of `files`. -/
theorem ingestFiles_wrote (hT : StoreContract T keep get) (hE : TextOnly E vec) {root : PathBuf}
    {files : List (PathBuf × Text)} (hread : ∀ f ∈ files, ∀ text, read f.1 = .ok text → text = f.2)
    {p q : Pipeline M W} {seen : List IngestStats} {r : Except (IngestError Err) Unit}
    (h : ingestFiles E T opts root read p (files.map Prod.fst) = (q, seen, r)) :
    Wrote (chunksLog opts vec keep p.stats.nextId (plan root files)) r.isOk
      (get p.writer) (get q.writer) := by
  induction files generalizing p seen with
  | nil =>
    simp only [List.map_nil, ingestFiles, Prod.mk.injEq] at h
    obtain ⟨rfl, -, rfl⟩ := h
    exact ⟨fun _ => rfl, fun _ _ => rfl⟩
  | cons f files ih =>
    rw [List.map_cons] at h
    rw [plan_cons, chunksLog_append]
    rcases ingestFiles_cons E T opts root read h with
      ⟨e, hfile, rfl⟩ | ⟨p₁, seen₁, hfile, hrest⟩
    · cases htext : read f.1 with
      | error ioError =>
        rw [htext] at hfile
        simp only [ingestFile, Prod.mk.injEq] at hfile
        obtain ⟨rfl, -⟩ := hfile
        exact (Wrote.refl _ _).cut _
      | ok text =>
        obtain rfl := hread f List.mem_cons_self text htext
        rw [htext, ingestFile] at hfile
        exact (ingestChunks_wrote hT hE hfile).1.cut _
    · obtain ⟨text, htext, hchunks⟩ := ingestFile_ok hfile
      obtain rfl := hread f List.mem_cons_self text htext
      obtain ⟨hwrote, hnext⟩ := ingestChunks_wrote hT hE hchunks
      have hothers := ih (fun g hg => hread g (List.mem_cons_of_mem _ hg)) hrest
      dsimp only [IngestStats.addFile] at hothers
      rw [hnext rfl] at hothers
      have hlen : (fileChunks root f.1 f.2).length = (chunksOf f.1 f.2).length := by
        rw [fileChunks, List.length_map]
      rw [hlen]
      exact hwrote.append hothers

/-- A loop that ends well has read every file. -/
theorem ingestFiles_texts {root : PathBuf} {p q : Pipeline M W} {paths : List PathBuf}
    {seen : List IngestStats}
    (h : ingestFiles E T opts root read p paths = (q, seen, .ok ())) :
    ∃ files : List (PathBuf × Text), files.map Prod.fst = paths ∧
      ∀ f ∈ files, read f.1 = .ok f.2 := by
  induction paths generalizing p seen with
  | nil => exact ⟨[], rfl, by simp⟩
  | cons path paths ih =>
    obtain ⟨p₁, seen₁, hfile, hrest⟩ := ingestFiles_cons_ok h
    obtain ⟨text, htext, -⟩ := ingestFile_ok hfile
    obtain ⟨files, rfl, hfiles⟩ := ih hrest
    refine ⟨(path, text) :: files, rfl, ?_⟩
    intro f hf
    rcases List.mem_cons.1 hf with rfl | hf
    · exact htext
    · exact hfiles f hf

end Store

/-! ## The run as a whole -/

section Run

variable {E : Embed M F} {T : TenantWrite W F Err} {opts : IngestOptions} {root : PathBuf}
  {read : PathBuf → Except IoError Text} {os : Os} {fuel : Nat} {m : M} {w : W}
  {run : TreeRun M W Err}

/-- A run that does not stop at the dimensions goes through the collected files. -/
theorem ingestTree_collected (h : ingestTree E T opts root read os fuel m w = some run)
    (hdim : ∀ embed tenant, run.result ≠ .error (.dimMismatch embed tenant)) :
    ∃ paths, collectFiles os opts fuel root = some paths ∧
      ingestCollected E T opts root read m w paths = run := by
  unfold ingestTree at h
  split at h
  · simp only [Option.some.injEq] at h
    subst h
    exact absurd rfl (hdim _ _)
  · exact Option.map_eq_some_iff.1 h

/-- A run that fails at a file has gone through the loop only. -/
theorem ingestTree_failed {e : IngestError Err}
    (h : ingestTree E T opts root read os fuel m w = some run)
    (he : run.result = .error (.file e)) :
    ∃ paths q, collectFiles os opts fuel root = some paths ∧
      ingestFiles E T opts root read ⟨m, w, .startingAt opts.startId⟩ paths =
        (q, run.progress, .error e) ∧ run.writer = q.writer := by
  obtain ⟨paths, hpaths, rfl⟩ := ingestTree_collected h (by simp [he])
  refine ⟨paths, ?_⟩
  unfold ingestCollected at he ⊢
  split at he
  · rename_i q seen e' hloop
    simp only [Except.error.injEq, TreeError.file.injEq] at he
    subst he
    exact ⟨q, hpaths, hloop, rfl⟩
  · split at he <;> simp at he

/-- A run that succeeds has gone through the loop and flushed. -/
theorem ingestTree_done {stats : IngestStats}
    (h : ingestTree E T opts root read os fuel m w = some run) (hdone : run.result = .ok stats) :
    ∃ paths q, collectFiles os opts fuel root = some paths ∧
      ingestFiles E T opts root read ⟨m, w, .startingAt opts.startId⟩ paths =
        (q, run.progress, .ok ()) ∧ T.flush q.writer = (run.writer, .ok ()) := by
  obtain ⟨paths, hpaths, rfl⟩ := ingestTree_collected h (by simp [hdone])
  refine ⟨paths, ?_⟩
  unfold ingestCollected at hdone ⊢
  split at hdone
  · simp at hdone
  · rename_i q seen hloop
    split at hdone
    · simp at hdone
    · rename_i w' hflush
      exact ⟨q, hpaths, hloop, by simp only [hflush]⟩

end Run

section Retry

open Replay

variable {opts : IngestOptions} {root : PathBuf} {os : Os} {fuel : Nat}

/-- A failed run made the first inserts of the run without failures, and did not flush. -/
theorem ingestTree_prefix {E E' : Embed M F} {T T' : TenantWrite W F Err}
    {read read' : PathBuf → Except IoError Text} (hE : EmbedExtends E E')
    (hT : WriterExtends T T') (hread : ReadExtends read read') {m : M} {w : W}
    {run run' : TreeRun M (W × List (Call F)) Err} {e : IngestError Err} {stats : IngestStats}
    (h : ingestTree E (recorded T) opts root read os fuel m (w, []) = some run)
    (h' : ingestTree E' (recorded T') opts root read' os fuel m (w, []) = some run')
    (he : run.result = .error (.file e)) (hdone : run'.result = .ok stats) :
    FailedPrefix run.writer.2 run'.writer.2 := by
  obtain ⟨paths, q, hpaths, hloop, hwriter⟩ := ingestTree_failed h he
  obtain ⟨paths', q', hpaths', hloop', hflush⟩ := ingestTree_done h' hdone
  have hsame : paths' = paths := Option.some.inj (hpaths'.symm.trans hpaths)
  rw [hsame] at hloop'
  have hcalls : run'.writer.2 = q'.writer.2 ++ [.flush (T'.flush q'.writer.1).2.isOk] := by
    have hrun := congrArg (fun r => r.1.2) hflush
    exact hrun.symm
  rcases ingestFiles_cut hE hT hread hloop hloop' with ⟨hok, -⟩ | ⟨-, hcut⟩
  · simp at hok
  · rw [hwriter, hcalls]
    exact hcut.failedPrefix _

/-- A failed run leaves no trace in the records once a run over the same files has succeeded. -/
theorem ingestTree_retry {R : Type} {E : Embed M F} {T : TenantWrite W F Err}
    {read₁ read : PathBuf → Except IoError Text}
    {keep : List F → Bool → List String → Bytes → R} {get : W → RecordId → Option R}
    {vec : Text → List F} (hT : StoreContract T keep get) (hE : TextOnly E vec)
    (hread : ReadExtends read₁ read) {m₁ m₂ m₃ : M} {w₁ w₂ w₃ : W}
    {failed retried alone : TreeRun M W Err} {e : IngestError Err} {stats stats' : IngestStats}
    (hfailed : ingestTree E T opts root read₁ os fuel m₁ w₁ = some failed)
    (he : failed.result = .error (.file e))
    (hretried : ingestTree E T opts root read os fuel m₂ w₂ = some retried)
    (hok : retried.result = .ok stats) (hw₂ : get w₂ = get failed.writer)
    (halone : ingestTree E T opts root read os fuel m₃ w₃ = some alone)
    (hok' : alone.result = .ok stats') (hw₃ : get w₃ = get w₁) :
    get retried.writer = get alone.writer := by
  obtain ⟨paths₁, q₁, hpaths₁, hloop₁, hwriter₁⟩ := ingestTree_failed hfailed he
  obtain ⟨paths₂, q₂, hpaths₂, hloop₂, hflush₂⟩ := ingestTree_done hretried hok
  obtain ⟨paths₃, q₃, hpaths₃, hloop₃, hflush₃⟩ := ingestTree_done halone hok'
  obtain rfl : paths₁ = paths₂ := Option.some.inj (hpaths₁.symm.trans hpaths₂)
  obtain rfl : paths₁ = paths₃ := Option.some.inj (hpaths₁.symm.trans hpaths₃)
  -- all three go over the files that the successful runs read
  obtain ⟨files, rfl, hfiles⟩ := ingestFiles_texts hloop₂
  have htexts : ∀ f ∈ files, ∀ text, read f.1 = .ok text → text = f.2 := by
    intro f hf text htext
    rw [hfiles f hf] at htext
    exact (Except.ok.inj htext).symm
  have htexts₁ : ∀ f ∈ files, ∀ text, read₁ f.1 = .ok text → text = f.2 :=
    fun f hf text htext => htexts f hf text (hread _ _ htext)
  have hwrote₁ := ingestFiles_wrote hT hE htexts₁ hloop₁
  have hwrote₂ := (ingestFiles_wrote hT hE htexts hloop₂).complete rfl
  have hwrote₃ := (ingestFiles_wrote hT hE htexts hloop₃).complete rfl
  rw [hT.flush _ _ hflush₂, hwrote₂, hT.flush _ _ hflush₃, hwrote₃]
  dsimp only
  rw [hw₂, hw₃, hwriter₁]
  exact replay_congr_of_unwritten hwrote₁.frame

variable (opts root)

/-- A run over a tree ends. If it fails at a file, the inserts it made are the first ones of the run
without failures and it did not flush; in a store that follows the contract, a run over the same
files that succeeds after it leaves the records that it would have left without it. -/
theorem ingestTree_failure {n : Nat} (hdepth : DepthLE os n root) (hfuel : n < fuel) :
    (∀ (E : Embed M F) (T : TenantWrite W F Err) (read : PathBuf → Except IoError Text) (m : M)
      (w : W), ∃ run, ingestTree E T opts root read os fuel m w = some run) ∧
    (∀ (E E' : Embed M F) (T T' : TenantWrite W F Err)
      (read read' : PathBuf → Except IoError Text), EmbedExtends E E' → WriterExtends T T' →
      ReadExtends read read' → ∀ (m : M) (w : W) (run run' : TreeRun M (W × List (Call F)) Err)
        (e : IngestError Err) (stats : IngestStats),
        ingestTree E (recorded T) opts root read os fuel m (w, []) = some run →
        ingestTree E' (recorded T') opts root read' os fuel m (w, []) = some run' →
        run.result = .error (.file e) → run'.result = .ok stats →
        FailedPrefix run.writer.2 run'.writer.2) ∧
    (∀ (R : Type) (E : Embed M F) (T : TenantWrite W F Err)
      (read₁ read : PathBuf → Except IoError Text)
      (keep : List F → Bool → List String → Bytes → R) (get : W → RecordId → Option R)
      (vec : Text → List F), StoreContract T keep get → TextOnly E vec → ReadExtends read₁ read →
      ∀ (m₁ m₂ m₃ : M) (w₁ w₂ w₃ : W) (failed retried alone : TreeRun M W Err)
        (e : IngestError Err) (stats stats' : IngestStats),
        ingestTree E T opts root read₁ os fuel m₁ w₁ = some failed →
        failed.result = .error (.file e) →
        ingestTree E T opts root read os fuel m₂ w₂ = some retried →
        retried.result = .ok stats → get w₂ = get failed.writer →
        ingestTree E T opts root read os fuel m₃ w₃ = some alone →
        alone.result = .ok stats' → get w₃ = get w₁ →
        get retried.writer = get alone.writer) := by
  refine ⟨?_, ?_, ?_⟩
  · intro E T read m w
    rw [ingestTree]
    split
    · exact ⟨_, rfl⟩
    · have hsome : (collectFiles os opts fuel root).isSome = true :=
        collectFiles_isSome hdepth hfuel
      obtain ⟨paths, hpaths⟩ := Option.isSome_iff_exists.1 hsome
      exact ⟨_, by rw [hpaths, Option.map_some]⟩
  · intro E E' T T' read read' hE hT hread m w run run' e stats h h' he hdone
    exact ingestTree_prefix hE hT hread h h' he hdone
  · intro R E T read₁ read keep get vec hT hE hread m₁ m₂ m₃ w₁ w₂ w₃ failed retried alone e stats
      stats' hfailed he hretried hok hw₂ halone hok' hw₃
    exact ingestTree_retry hT hE hread hfailed he hretried hok hw₂ halone hok' hw₃

end Retry

/-! ## The skeg tenant as the store -/

section Vault

/-- What the sidecar keeps of an insert. -/
def kept (_v : List F) (shareable : Bool) (tags : List String) (payload : Bytes) :
    Bool × List String × Bytes :=
  (shareable, tags, payload)

/-- The records of a tenant, by id. -/
def sidecarRecords {S : Type} {E : DiskVamanaIndex F S} (s : Dir E × Tenant E) (id : RecordId) :
    Option (Bool × List String × Bytes) :=
  (s.2.inner.sidecar.get id).map fun e => (e.shareable, e.tags, e.payload)

/-- The sidecar follows the contract of `TenantWrite`, whatever the engine does. -/
theorem writer_contract {S : Type} (E : DiskVamanaIndex F S) (J : SerdeJson) (env : E.Env)
    (o : WriteOutcome) :
    StoreContract (Tenant.writer J env o) kept (sidecarRecords : Dir E × Tenant E → _) := by
  refine ⟨?_, ?_, ?_⟩
  · intro s id v shareable tags payload s' h
    have hsidecar := Tenant.insert_sidecar env s.1 s.2 ⟨id, v, shareable, tags, payload⟩
    simp only [Tenant.writer, Prod.mk.injEq] at h
    obtain ⟨rfl, hok⟩ := h
    rw [hok] at hsidecar
    funext k
    rw [sidecarRecords, hsidecar, MetadataSidecar.get, Keyed.find_upsert]
    by_cases hk : k = id
    · subst hk
      rw [Function.update_self]
      simp [Tenant.Record.entry, kept]
    · have hval : k.val ≠ (Tenant.Record.entry ⟨id, v, shareable, tags, payload⟩).recordId :=
        fun h => hk (RecordId.val_inj.1 h)
      rw [Function.update_of_ne hk, if_neg hval]
      rfl
  · intro s id v shareable tags payload s' e h k _
    have hsidecar := Tenant.insert_sidecar env s.1 s.2 ⟨id, v, shareable, tags, payload⟩
    simp only [Tenant.writer, Prod.mk.injEq] at h
    obtain ⟨rfl, herror⟩ := h
    rw [herror] at hsidecar
    rw [sidecarRecords, hsidecar, sidecarRecords]
  · intro s s' h
    simp only [Tenant.writer, Prod.mk.injEq] at h
    rw [← h.1]
    rfl

end Vault

section Notes

open Reference

/-- The scripted embedder without its failures. -/
def steady : Embed (List Bool) Int where
  dim _ := 1
  passage script text := (script.tail, .ok [text.length])

theorem scripted_extends : EmbedExtends scripted steady := by
  intro script text script' v h
  match script with
  | false :: script => simp [scripted] at h
  | true :: script => exact h
  | [] => exact h

theorem scripted_textOnly : TextOnly scripted fun text => [text.length] := by
  intro script text script' v h
  match script with
  | false :: script => simp [scripted] at h
  | true :: script => simp_all [scripted]
  | [] => simp_all [scripted]

/-- Whether a run failed at a file. -/
def TreeRun.stopped {M W Err : Type} (run : TreeRun M W Err) : Bool :=
  match run.result with
  | .error (.file _) => true
  | _ => false

/-- The ingest of the notes into a tenant. -/
def ingestNotes {W : Type} (E : Embed (List Bool) Int) (T : TenantWrite W Int TenantError)
    (script : List Bool) (w : W) : Option (TreeRun (List Bool) W TenantError) :=
  ingestTree E T markdown notes readNotes notesOs 2 script w

theorem stopped_iff {M W Err : Type} {run : TreeRun M W Err} :
    run.stopped = true ↔ ∃ e, run.result = .error (.file e) := by
  rw [TreeRun.stopped]
  split <;> simp_all

theorem isOk_iff {M W Err : Type} {run : TreeRun M W Err} :
    run.result.isOk = true ↔ ∃ stats, run.result = .ok stats := by
  cases run.result <;> simp [Except.isOk, Except.toBool]

/-- The embedder fails at the second chunk of the notes. The run without that failure starts with
the same inserts, and a retry into the tenant that the failed run has left leaves the records of a
run into a new tenant. -/
theorem ingestTree_failure_example :
    (∃ failed complete, ingestNotes scripted (recorded vaultWriter) [true, false] (vault, []) =
        some failed ∧ failed.stopped = true ∧
      ingestNotes steady (recorded vaultWriter) [true, false] (vault, []) = some complete ∧
      FailedPrefix failed.writer.2 complete.writer.2) ∧
    ∃ failed retried alone, ingestNotes scripted vaultWriter [true, false] vault = some failed ∧
      failed.stopped = true ∧ ingestNotes scripted vaultWriter [] failed.writer = some retried ∧
      ingestNotes scripted vaultWriter [] vault = some alone ∧
      sidecarRecords retried.writer = sidecarRecords alone.writer := by
  obtain ⟨-, hprefix, hretry⟩ := @ingestTree_failure (List Bool) (Dir engine × Tenant engine) Int
    TenantError markdown notes notesOs 2 1 depthLE_notes (by decide)
  refine ⟨?_, ?_⟩
  · have hfailed : (ingestNotes scripted (recorded vaultWriter) [true, false] (vault, [])).any
        TreeRun.stopped = true := by decide +kernel
    have hcomplete : (ingestNotes steady (recorded vaultWriter) [true, false] (vault, [])).any
        (fun run => run.result.isOk) = true := by decide +kernel
    obtain ⟨failed, hrun, hstopped⟩ := (Option.any_eq_true ..).1 hfailed
    obtain ⟨complete, hrun', hok⟩ := (Option.any_eq_true ..).1 hcomplete
    obtain ⟨e, he⟩ := stopped_iff.1 hstopped
    obtain ⟨stats, hdone⟩ := isOk_iff.1 hok
    have hwriter : WriterExtends vaultWriter vaultWriter := fun _ _ _ _ _ _ _ h => h
    have hread : ReadExtends readNotes readNotes := fun _ _ h => h
    exact ⟨failed, complete, hrun, hstopped, hrun', hprefix scripted steady vaultWriter vaultWriter
      readNotes readNotes scripted_extends hwriter hread [true, false] vault failed complete e stats
      hrun hrun' he hdone⟩
  · have hruns : (ingestNotes scripted vaultWriter [true, false] vault).any (fun failed =>
        failed.stopped && (ingestNotes scripted vaultWriter [] failed.writer).any
          (fun run => run.result.isOk)) = true := by decide +kernel
    have halone : (ingestNotes scripted vaultWriter [] vault).any (fun run => run.result.isOk) =
        true := by decide +kernel
    obtain ⟨failed, hfailed, hboth⟩ := (Option.any_eq_true ..).1 hruns
    obtain ⟨hstopped, hretried⟩ := (Bool.and_eq_true ..).mp hboth
    obtain ⟨retried, hrun, hok⟩ := (Option.any_eq_true ..).1 hretried
    obtain ⟨alone, hrun', hok'⟩ := (Option.any_eq_true ..).1 halone
    obtain ⟨e, he⟩ := stopped_iff.1 hstopped
    obtain ⟨stats, hdone⟩ := isOk_iff.1 hok
    obtain ⟨stats', hdone'⟩ := isOk_iff.1 hok'
    have hread : ReadExtends readNotes readNotes := fun _ _ h => h
    exact ⟨failed, retried, alone, hfailed, hstopped, hrun, hrun', hretry _ scripted vaultWriter
      readNotes readNotes kept sidecarRecords _ (writer_contract engine json false .done)
      scripted_textOnly hread [true, false] [] [] vault failed.writer vault failed retried alone e
      stats stats' hfailed he hrun hdone rfl hrun' hdone' rfl⟩

end Notes

end SkegRigging.Ingest
