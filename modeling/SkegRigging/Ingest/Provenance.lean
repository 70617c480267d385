import SkegRigging.Ingest.Durable
import SkegRigging.Ingest.SrcTag

/-!
# From a record back to its source

A record of an ingest carries a provenance tag, a payload and a vector, each written on its own. In
the store that a later open finds they belong together (`ingestTree_traceable`): the tag names a
file below the root and some of its lines, the payload is the text of these lines, and the vector is
an answer of the embedder to this text.
-/

set_option autoImplicit false

namespace SkegRigging.Ingest

open Session History Replay

/-! ## The lines of a chunk -/

/-- The lines `lo` to `hi` of a text, counted from one. -/
def quote (text : Text) (lo hi : Nat) : Text := join (((lines text).take hi).drop (lo - 1))

/-- What a chunk says of its text. -/
structure Quotes (text : Text) (c : Chunk) : Prop where
  first : 1 ≤ c.lineLo
  ordered : c.lineLo ≤ c.lineHi
  last : c.lineHi ≤ (lines text).length
  text_eq : c.text = quote text c.lineLo c.lineHi

theorem paragraphs_quote {text : Text} {c : Chunk} (h : c ∈ paragraphs text) : Quotes text c := by
  obtain ⟨first, hscan⟩ := paragraphs_scanned text
  have hle := paragraphs_lineLo_le h
  rw [paragraphs_closed, hscan.mem_closed c] at h
  obtain ⟨pre, run, hrun, rfl⟩ := h
  obtain ⟨post, hlines, -⟩ := (hscan.maximalRun_iff.2 hrun).after
  refine ⟨Nat.le_add_left 1 _, hle, ?_, ?_⟩
  · rw [hlines]
    simp [paragraph]
  · have hcut : ((lines text).take (pre.length + run.length)).drop pre.length = run := by
      rw [hlines, ← List.length_append, List.take_left', List.drop_left']
      · rfl
      · rfl
    simp only [paragraph, quote, Nat.add_sub_cancel, hcut]

theorem lineWindows_quote {text : Text} {win step : Nat} (hstep : max step 1 ≤ max win 1)
    {c : Chunk} (h : c ∈ chunk text (.lines win step)) : Quotes text c := by
  have hpos : 0 < max step 1 := by omega
  obtain ⟨count, hcount, hloop⟩ := windowsFrom_windows (lines text) (i := 0) hpos hstep
    (Nat.le_refl _)
  have hchunks : c ∈ windowsFrom (lines text) (max win 1) (max step 1)
      ((lines text).length - 0) 0 := h
  simp only [Nat.zero_add] at hloop
  rw [hloop, List.mem_filter, List.mem_map] at hchunks
  obtain ⟨⟨k, hk, rfl⟩, -⟩ := hchunks
  exact ⟨Nat.le_add_left 1 _, hcount.lineLo_le (by omega) (List.mem_range.1 hk),
    Nat.min_le_right _ _, rfl⟩

/-- Every chunk of a file has the text of the lines that it names. -/
theorem chunksOf_quote {file : PathBuf} {text : Text} {c : Chunk} (h : c ∈ chunksOf file text) :
    Quotes text c := by
  rw [chunksOf] at h
  cases hmode : ChunkMode.forExt (file.extension.getD "") with
  | paragraph =>
    rw [hmode] at h
    exact paragraphs_quote h
  | lines win step =>
    rw [hmode] at h
    exact lineWindows_quote (forExt_step_le hmode) h

/-! ## The rows of a plan -/

section Plan

variable {M F : Type} {Em : Embed M F} {opts : IngestOptions} {root : PathBuf}
  {files : List (PathBuf × Text)} {vs : List (List F)}

theorem mem_plan {x : String × Chunk} :
    x ∈ plan root files ↔ ∃ f ∈ files, x.1 = relpath root f.1 ∧ x.2 ∈ chunksOf f.1 f.2 := by
  rw [plan, List.mem_flatMap]
  simp only [fileChunks, List.mem_map]
  constructor
  · rintro ⟨f, hf, c, hc, rfl⟩
    exact ⟨f, hf, rfl, hc⟩
  · rintro ⟨f, hf, hrel, hc⟩
    exact ⟨f, hf, x.2, hc, Prod.ext hrel.symm rfl⟩

/-- Each vector is an answer of the embedder to its text. -/
theorem embedAll_answers {m m' : M} {texts : List Text}
    (h : embedAll Em m texts = some (m', vs)) :
    ∀ x ∈ texts.zip vs, ∃ m₁ m₂, Em.passage m₁ x.1 = (m₂, .ok x.2) := by
  induction texts generalizing m vs with
  | nil => simp
  | cons text texts ih =>
    rw [embedAll] at h
    split at h
    · simp at h
    · rename_i m₁ v hv
      obtain ⟨⟨m₂, us⟩, hrest, heq⟩ := Option.map_eq_some_iff.1 h
      cases heq
      intro x hx
      rw [List.zip_cons_cons, List.mem_cons] at hx
      rcases hx with rfl | hx
      · exact ⟨m, m₁, hv⟩
      · exact ih hrest x hx

/-- Consecutive inserts, by their positions. -/
theorem callsFrom_eq (next : UInt64) (cs : List ((String × Chunk) × List F)) :
    callsFrom opts next cs =
      cs.mapIdx fun k c => chunkCall opts (UInt64.ofNat (next.toNat + k)) c := by
  have h : callsFrom opts (UInt64.ofNat next.toNat) cs = cs.mapIdx fun k c =>
      chunkCall opts (UInt64.ofNat (next.toNat + k)) c := callsFrom_eq_mapIdx _ _
  rwa [UInt64.ofNat_toNat] at h

/-- The ids of consecutive inserts, as long as the counter does not wrap. -/
theorem callsFrom_key {next : UInt64} {cs : List ((String × Chunk) × List F)} {call : InsertCall F}
    (h : call ∈ callsFrom opts next cs) (hids : next.toNat + cs.length ≤ UInt64.size) :
    next.toNat ≤ call.key.toNat ∧ call.key.toNat < next.toNat + cs.length := by
  rw [callsFrom_eq, List.mem_mapIdx] at h
  obtain ⟨k, hk, rfl⟩ := h
  have hid : (UInt64.ofNat (next.toNat + k)).toNat = next.toNat + k :=
    UInt64.toNat_ofNat_of_lt (by omega)
  simp only [InsertCall.key, chunkCall, hid]
  omega

variable (opts) in
theorem nodup_callsFrom {next : UInt64} {cs : List ((String × Chunk) × List F)}
    (hids : next.toNat + cs.length ≤ UInt64.size) :
    ((callsFrom opts next cs).map InsertCall.key).Nodup := by
  rw [callsFrom_eq, List.nodup_iff_injective_getElem]
  rintro ⟨i, hi⟩ ⟨j, hj⟩ heq
  simp only [List.length_map, List.length_mapIdx] at hi hj
  simp only [List.getElem_map, List.getElem_mapIdx, InsertCall.key, chunkCall] at heq
  have hid : ∀ k, k < cs.length → (UInt64.ofNat (next.toNat + k)).toNat = next.toNat + k :=
    fun k hk => UInt64.toNat_ofNat_of_lt (by omega)
  have hnat := congrArg UInt64.toNat heq
  rw [hid i hi, hid j hj, Nat.add_left_cancel_iff] at hnat
  exact Fin.ext hnat

variable (opts) in
/-- Every id in the range of consecutive inserts is that of one. -/
theorem mem_callsFrom (next : UInt64) {cs : List ((String × Chunk) × List F)} {k : Nat}
    (hk : k < cs.length) :
    chunkCall opts (UInt64.ofNat (next.toNat + k)) cs[k] ∈ callsFrom opts next cs := by
  rw [callsFrom_eq, List.mem_mapIdx]
  exact ⟨k, hk, rfl⟩

end Plan

/-! ## The records of a run -/

/-- Lines of a readable file. -/
structure Source where
  file : PathBuf
  text : Text
  lo : Nat
  hi : Nat

/-- The text of the lines. -/
def Source.quote (s : Source) : Text := Ingest.quote s.text s.lo s.hi

/-- The record and the vector are those of the source: the last tag of the record names its file,
below the root, and its lines, the payload is their text, and the vector is an answer to it. -/
structure Source.Gives {M F : Type} (Em : Embed M F) (opts : IngestOptions) (root : PathBuf)
    (read : PathBuf → Except IoError Text) (s : Source) (e : RecordEntry) (v : List F) : Prop where
  readable : read s.file = .ok s.text
  range : 1 ≤ s.lo ∧ s.lo ≤ s.hi ∧ s.hi ≤ (lines s.text).length
  shareable : e.shareable = opts.shareable
  tag : ∃ rel tag, e.tags = opts.tags ++ [tag] ∧ decodeTag tag = some (rel, s.lo, s.hi) ∧
    root.joinStr rel = s.file
  payload : e.payload = utf8 s.quote
  vector : ∃ m m', Em.passage m s.quote = (m', .ok v)

section Traceable

variable {M F S : Type} {E : DiskVamanaIndex F S} {Em : Embed M F} {opts : IngestOptions}
  {root : PathBuf} {read : PathBuf → Except IoError Text} {os : Os} {fuel : Nat} {m : M}
  {envs : Nat → E.Env} {o : Nat → WriteOutcome} {run : TreeRun M (Shelf E) TenantError}
  {stats : IngestStats}

/-- A row of the plan over a directory comes from its source. -/
theorem gives_of_planned (hos : os.Lawful) (hroot : os.isFile root = false)
    {files : List (PathBuf × Text)}
    (hpaths : collectFiles os opts fuel root = some (files.map Prod.fst))
    (hread : ∀ f ∈ files, read f.1 = .ok f.2) {m' : M} {vs : List (List F)}
    (hembed : embedAll Em m ((plan root files).map fun c => c.2.text) = some (m', vs))
    {x : (String × Chunk) × List F} (hx : x ∈ (plan root files).zip vs) (id : UInt64) :
    ∃ s : Source, s.file ∈ files.map Prod.fst ∧
      s.Gives Em opts root read (chunkCall opts id x).record.entry x.2 := by
  obtain ⟨f, hf, hrel, hc⟩ := mem_plan.1 (List.of_mem_zip hx).1
  have hquote := chunksOf_quote hc
  have hmem : f.1 ∈ files.map Prod.fst := List.mem_map_of_mem hf
  have hnames : NamesFile os root f.1 :=
    namesFile_of_below hos hroot ((mem_collectFiles hos hroot hpaths).1 hmem).1
  have hjoin : root.joinStr (relpath root f.1) = f.1 := by
    have hfile := hnames.2
    rwa [hroot, if_neg Bool.false_ne_true] at hfile
  have hanswer : ∃ m₁ m₂, Em.passage m₁ x.1.2.text = (m₂, .ok x.2) := by
    apply embedAll_answers hembed (x.1.2.text, x.2)
    rw [List.zip_map_left, List.mem_map]
    exact ⟨x, hx, rfl⟩
  refine ⟨⟨f.1, f.2, x.1.2.lineLo, x.1.2.lineHi⟩, hmem, hread f hf,
    ⟨hquote.first, hquote.ordered, hquote.last⟩, rfl, ?_, ?_, ?_⟩
  · exact ⟨x.1.1, srcTag x.1.1 x.1.2, rfl, decodeTag_srcTag _ _, by rw [hrel, hjoin]⟩
  · exact congrArg utf8 hquote.text_eq
  · rw [Source.quote, ← hquote.text_eq]
    exact hanswer

/-- After a run over a directory that returned `Ok`, and any loss of the handle, a later open finds
under each of its ids a record and a vector that come from the lines the tag names; under every
other id it finds what was there before. -/
theorem ingestTree_traceable (Md : E.Model) {J : SerdeJson} (hJ : J.Laws) (dir : PathBuf)
    (ops : List (Op E)) {t : Tenant E} (ht : (runs J dir ops).handle = some t) (hos : os.Lawful)
    (hroot : os.isFile root = false)
    (hrun : ingestTree Em (shelfWriter J envs o) opts root read os fuel m
      ⟨0, (runs J dir ops).files, t⟩ = some run) (hdone : run.result = .ok stats)
    (hids : opts.startId.toNat + stats.chunks ≤ UInt64.size) {env : OpenEnv E}
    {tenantId : TenantId} {embeddingDim : UInt32} {files' : Dir E} {t' : Tenant E}
    (hopen : Tenant.open J env dir run.writer.files tenantId embeddingDim = (files', .ok t')) :
    ∃ paths, collectFiles os opts fuel root = some paths ∧ ∀ id : UInt64,
      if opts.startId.toNat ≤ id.toNat ∧ id.toNat < opts.startId.toNat + stats.chunks then
        ∃ e v, ∃ s : Source, t'.inner.sidecar.get ⟨id⟩ = some e ∧
          Md.vectors t'.inner.index id = some v ∧ s.file ∈ paths ∧ s.Gives Em opts root read e v
      else
        t'.inner.sidecar.get ⟨id⟩ = t.inner.sidecar.get ⟨id⟩ ∧
          Md.vectors t'.inner.index id = Md.vectors t.inner.index id := by
  obtain ⟨files, m', vs, more, hpaths, hread, hstats, hembed, hfiles, hran⟩ :=
    ran_of_ingest ht rfl hrun hdone
  have hs : Inv Md J (runs J dir ops) := runs_inv hJ dir ops
  have hdisk := (runs_inv (M := Md) hJ dir (ops ++ more)).disk
  rw [hfiles] at hdisk
  obtain ⟨hsidecar, hvectors⟩ := reopen_finds hdisk (hran.saved hs ht) hopen
  rw [hran.latest, ← hs.vectors Md J ht] at hvectors
  have hrecords := congrArg MetadataSidecar.records (hsidecar.trans hran.records)
  have hcount : stats.chunks = (plan root files).length := by rw [hstats]; rfl
  have hlen : vs.length = (plan root files).length := by
    rw [embedAll_length hembed, List.length_map]
  rw [hcount] at hids ⊢
  have hzip : ((plan root files).zip vs).length = (plan root files).length := by
    rw [List.length_zip, hlen, Nat.min_self]
  rw [← hzip] at hids ⊢
  rw [← planCalls_eq] at hrecords hvectors
  have hnodup := nodup_callsFrom opts hids
  have hkeys := map_recordId_entriesOf (callsFrom opts opts.startId ((plan root files).zip vs))
  have hkeys' := map_fst_vectorsOf (callsFrom opts opts.startId ((plan root files).zip vs))
  refine ⟨_, hpaths, fun id => ?_⟩
  split
  · rename_i hin
    have hk : id.toNat - opts.startId.toNat < ((plan root files).zip vs).length := by omega
    have hcall := mem_callsFrom opts opts.startId hk
    have hsum : opts.startId.toNat + (id.toNat - opts.startId.toNat) = id.toNat := by omega
    rw [hsum, UInt64.ofNat_toNat] at hcall
    obtain ⟨s, hfile, hgives⟩ :=
      gives_of_planned hos hroot hpaths hread hembed (List.getElem_mem hk) id
    refine ⟨_, _, s, ?_, ?_, hfile, hgives⟩
    · rw [MetadataSidecar.get, hrecords]
      exact Keyed.find_upsertAll_of_mem RecordEntry.recordId _ (hkeys.symm ▸ hnodup)
        (List.mem_map_of_mem hcall)
    · rw [hvectors]
      exact replay_of_mem _ (hkeys'.symm ▸ hnodup) (List.mem_map_of_mem hcall)
  · rename_i hout
    have hnot : id ∉ (callsFrom opts opts.startId ((plan root files).zip vs)).map
        InsertCall.key := by
      intro hmem
      obtain ⟨call, hcall, rfl⟩ := List.mem_map.1 hmem
      exact hout (callsFrom_key hcall hids)
    refine ⟨?_, ?_⟩
    · rw [MetadataSidecar.get, hrecords]
      exact Keyed.find_upsertAll_of_not_mem RecordEntry.recordId _ (hkeys.symm ▸ hnot)
    · rw [hvectors]
      exact replay_of_not_mem _ (hkeys'.symm ▸ hnot)

end Traceable

section Notes

open Reference

/-- The second record of the notes leads back to lines of a collected file. -/
theorem ingestTree_traceable_example : ∃ run files' t' e v, ∃ s : Source,
    shelve (runs json home openVault).files vault.2 = some run ∧
      Tenant.open json quiet home run.writer.files .zero 1 = (files', .ok t') ∧
      t'.inner.sidecar.get ⟨1⟩ = some e ∧ s.Gives scripted markdown notes readNotes e v := by
  obtain ⟨run, stats, files', t', hrun, hdone, hopen⟩ :=
    shelve_done (runs json home openVault).files vault.2 (by decide +kernel)
  have hcount : ((shelve (runs json home openVault).files vault.2).bind
      fun run => run.result.toOption).map IngestStats.chunks = some 3 := by decide +kernel
  have hchunks : stats.chunks = 3 := by
    rw [hrun, Option.bind_some, hdone] at hcount
    exact Option.some.inj hcount
  obtain ⟨paths, -, hrows⟩ := ingestTree_traceable model json_laws home openVault handle_openVault
    lawful_notes (by decide : notesOs.isFile notes = false) hrun hdone
    (by rw [hchunks]; decide) hopen
  have hrow := hrows 1
  rw [hchunks, if_pos (by decide)] at hrow
  obtain ⟨e, v, s, he, -, -, hgives⟩ := hrow
  exact ⟨run, files', t', e, v, s, hrun, hopen, he, hgives⟩

end Notes

end SkegRigging.Ingest
