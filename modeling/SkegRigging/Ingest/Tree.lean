import Mathlib.Algebra.Order.Ring.Nat
import Mathlib.Data.List.Lex
import Mathlib.Data.List.Sort
import Mathlib.Data.String.Basic
import SkegRigging.Ingest.File
import SkegRigging.Reference.Ingest

/-!
# Ingesting a directory tree

`collect_files`, `walk` and `ingest_tree` of `lib.rs`. What the file system answers is a parameter,
`Os`. The recursion of `walk` follows the directories it is shown, so its model takes a depth as
fuel and gives `none` when that is not enough; `walk_isSome` shows that the depth of a tree is.

The two nested loops write exactly a flat plan: the chunks of the files in order, under consecutive
ids, and one flush at the end (`ingestTree_exact`).
-/

set_option autoImplicit false

namespace SkegRigging.Ingest

/-! ## Collecting the files -/

/-- What the file system answers about a path. `readDir` gives the names of the entries in the order
of their enumeration, `none` for an entry that cannot be read, and no list for a directory that
cannot be opened. -/
structure Os where
  isFile : PathBuf → Bool
  isDir : PathBuf → Bool
  readDir : PathBuf → Option (List (Option String))

/-- `entries.flatten()`: the paths of the entries that can be read. -/
def Os.entries (os : Os) (dir : PathBuf) : List PathBuf :=
  match os.readDir dir with
  | none => []
  | some names => (names.filterMap fun name => name).map dir.join

/-- Some exclude is a substring of the path. -/
def excluded (opts : IngestOptions) (path : PathBuf) : Bool :=
  opts.excludes.any (contains path.display)

section Walk

variable (os : Os) (opts : IngestOptions)

/-- One iteration of the loop in `walk`: the files that the entry adds. -/
def visit (walk : PathBuf → Option (List PathBuf)) (path : PathBuf) : Option (List PathBuf) :=
  if excluded opts path then some []
  else if os.isDir path then walk path
  else if os.isFile path && accepts path opts then some [path]
  else some []

/-- `walk`, at most `fuel` directories deep. An unreadable directory is skipped. -/
def walk : Nat → PathBuf → Option (List PathBuf)
  | 0, _ => none
  | fuel + 1, dir => ((os.entries dir).mapM (visit os opts (walk fuel))).map List.flatten

/-- `out.sort()`: paths compare by their components. All of them start with the root. -/
def sortPaths (paths : List PathBuf) : List PathBuf :=
  paths.insertionSort fun a b => a.components ≤ b.components

/-- The files below `root`, which may be a single file. -/
def collectFiles (fuel : Nat) (root : PathBuf) : Option (List PathBuf) :=
  if os.isFile root then some (if accepts root opts then [root] else [])
  else (walk os opts fuel root).map sortPaths

/-- No chain of directories below `dir` is longer than `n`. -/
def DepthLE : Nat → PathBuf → Prop
  | 0, dir => ∀ path ∈ os.entries dir, os.isDir path = false
  | n + 1, dir => ∀ path ∈ os.entries dir, os.isDir path = true → DepthLE n path

variable {os opts}

/-- What one iteration of `walk` can do: skip an excluded entry, descend into a directory, or decide
about a file. -/
theorem visit_cases (os : Os) (opts : IngestOptions) (search : PathBuf → Option (List PathBuf))
    (path : PathBuf) :
    (excluded opts path = true ∧ visit os opts search path = some []) ∨
    (excluded opts path = false ∧ os.isDir path = true ∧
      visit os opts search path = search path) ∨
    (excluded opts path = false ∧ os.isDir path = false ∧ visit os opts search path =
      some (if os.isFile path && accepts path opts then [path] else [])) := by
  cases hexcluded : excluded opts path with
  | true =>
    refine Or.inl ⟨rfl, ?_⟩
    rw [visit, if_pos hexcluded]
  | false =>
    have hvisit : visit os opts search path =
        if os.isDir path then search path
        else if os.isFile path && accepts path opts then some [path] else some [] := by
      rw [visit, hexcluded, if_neg Bool.false_ne_true]
    cases hdir : os.isDir path with
    | true => exact Or.inr (Or.inl ⟨rfl, rfl, by rw [hvisit, if_pos hdir]⟩)
    | false =>
      refine Or.inr (Or.inr ⟨rfl, rfl, ?_⟩)
      rw [hvisit, hdir, if_neg Bool.false_ne_true, apply_ite some]

theorem visit_isSome {walk : PathBuf → Option (List PathBuf)} {path : PathBuf}
    (h : os.isDir path = true → (walk path).isSome = true) :
    (visit os opts walk path).isSome = true := by
  rcases visit_cases os opts walk path with ⟨-, hskip⟩ | ⟨-, hdir, hdescend⟩ | ⟨-, -, hfile⟩
  · rw [hskip, Option.isSome_some]
  · rw [hdescend]
    exact h hdir
  · rw [hfile, Option.isSome_some]

theorem mapM_isSome {α β : Type} {f : α → Option β} {l : List α}
    (h : ∀ a ∈ l, (f a).isSome = true) : (l.mapM f).isSome = true := by
  induction l with
  | nil => rfl
  | cons a l ih =>
    obtain ⟨b, hb⟩ := Option.isSome_iff_exists.1 (h a List.mem_cons_self)
    obtain ⟨bs, hbs⟩ := Option.isSome_iff_exists.1 (ih fun x hx => h x (List.mem_cons_of_mem _ hx))
    simp [List.mapM_cons, hb, hbs]

/-- Fuel beyond the depth of a tree is enough to walk it. -/
theorem walk_isSome {n fuel : Nat} {dir : PathBuf} (h : DepthLE os n dir) (hfuel : n < fuel) :
    (walk os opts fuel dir).isSome = true := by
  induction n generalizing fuel dir with
  | zero =>
    obtain ⟨fuel, rfl⟩ : ∃ k, fuel = k + 1 := ⟨fuel - 1, by omega⟩
    rw [walk, Option.isSome_map]
    apply mapM_isSome
    intro path hpath
    apply visit_isSome
    intro hdir
    rw [h path hpath] at hdir
    simp at hdir
  | succ n ih =>
    obtain ⟨fuel, rfl⟩ : ∃ k, fuel = k + 1 := ⟨fuel - 1, by omega⟩
    rw [walk, Option.isSome_map]
    apply mapM_isSome
    intro path hpath
    apply visit_isSome
    intro hdir
    exact ih (h path hpath hdir) (by omega)

theorem collectFiles_isSome {n fuel : Nat} {root : PathBuf} (h : DepthLE os n root)
    (hfuel : n < fuel) : (collectFiles os opts fuel root).isSome = true := by
  unfold collectFiles
  split
  · rfl
  · rw [Option.isSome_map]
    exact walk_isSome h hfuel

end Walk

/-! ## The run -/

/-- How an ingest run fails. -/
inductive TreeError (Err : Type)
  | dimMismatch (embed tenant : UInt32)
  | file (error : IngestError Err)
  | flush (error : Err)
  deriving Repr

/-- The text of the outermost error. -/
def TreeError.display {Err : Type} [ToString Err] : TreeError Err → String
  | .dimMismatch embed tenant =>
    "embedding dim " ++ toString embed ++ " does not match tenant dim " ++ toString tenant
  | .file error => error.display
  | .flush error => "flush writer: " ++ toString error

/-- `stats.files += 1`. -/
def IngestStats.addFile (stats : IngestStats) : IngestStats :=
  { stats with files := stats.files + 1 }

section Run

variable {M W F Err : Type} (E : Embed M F) (T : TenantWrite W F Err) (opts : IngestOptions)
  (root : PathBuf) (read : PathBuf → Except IoError Text)

/-- The loop of `ingest_tree` over the collected files. Beside the pipeline it returns the
statistics given to `progress`. -/
def ingestFiles (p : Pipeline M W) :
    List PathBuf → Pipeline M W × List IngestStats × Except (IngestError Err) Unit
  | [] => (p, [], .ok ())
  | file :: files =>
    match ingestFile E T opts root file (read file) p with
    | (p, .error e) => (p, [], .error e)
    | (p, .ok ()) =>
      let p := { p with stats := p.stats.addFile }
      match ingestFiles p files with
      | (q, seen, r) => (q, p.stats :: seen, r)

/-- The loop stops at its first file, or ingests it and goes on. -/
theorem ingestFiles_cons {p q : Pipeline M W} {file : PathBuf} {files : List PathBuf}
    {seen : List IngestStats} {r : Except (IngestError Err) Unit}
    (h : ingestFiles E T opts root read p (file :: files) = (q, seen, r)) :
    (∃ e, ingestFile E T opts root file (read file) p = (q, .error e) ∧ r = .error e) ∨
      ∃ p₁ seen₁, ingestFile E T opts root file (read file) p = (p₁, .ok ()) ∧
        ingestFiles E T opts root read { p₁ with stats := p₁.stats.addFile } files =
          (q, seen₁, r) := by
  unfold ingestFiles at h
  split at h
  · rename_i p₁ e hp₁
    simp only [Prod.mk.injEq] at h
    obtain ⟨rfl, -, rfl⟩ := h
    exact Or.inl ⟨e, hp₁, rfl⟩
  · rename_i p₁ hp₁
    simp only [Prod.mk.injEq] at h
    obtain ⟨hq, -, hr⟩ := h
    exact Or.inr ⟨p₁, _, hp₁, Prod.ext hq (Prod.ext rfl hr)⟩

/-- What a run leaves: the embedder and the writer, the statistics given to `progress`, and the
result. -/
structure TreeRun (M W Err : Type) where
  embedder : M
  writer : W
  progress : List IngestStats
  result : Except (TreeError Err) IngestStats

/-- `ingest_tree` once the files are collected. -/
def ingestCollected (embedder : M) (writer : W) (files : List PathBuf) : TreeRun M W Err :=
  match ingestFiles E T opts root read ⟨embedder, writer, .startingAt opts.startId⟩ files with
  | (p, seen, .error e) => ⟨p.embedder, p.writer, seen, .error (.file e)⟩
  | (p, seen, .ok ()) =>
    match T.flush p.writer with
    | (writer, .error e) => ⟨p.embedder, writer, seen, .error (.flush e)⟩
    | (writer, .ok ()) => ⟨p.embedder, writer, seen, .ok p.stats⟩

/-- Ingest a file or a directory tree. -/
def ingestTree (os : Os) (fuel : Nat) (embedder : M) (writer : W) : Option (TreeRun M W Err) :=
  if E.dim embedder ≠ T.embeddingDim writer then
    some ⟨embedder, writer, [],
      .error (.dimMismatch (E.dim embedder) (T.embeddingDim writer))⟩
  else (collectFiles os opts fuel root).map (ingestCollected E T opts root read embedder writer)

end Run

/-! ## The flat plan -/

section Plan

variable {M W F Err : Type} (E : Embed M F) (T : TenantWrite W F Err) (opts : IngestOptions)
  (root : PathBuf)

/-- Embed texts in order: the vectors, if every call succeeds. -/
def embedAll (m : M) : List Text → Option (M × List (List F))
  | [] => some (m, [])
  | text :: texts =>
    match E.passage m text with
    | (_, .error _) => none
    | (m, .ok v) => (embedAll m texts).map fun r => (r.1, v :: r.2)

/-- Make inserts in order: the store, if it accepts every one. -/
def insertAll (w : W) : List (InsertCall F) → Option W
  | [] => some w
  | c :: calls =>
    match T.insert w c.recordId c.embedding c.shareable c.tags c.payload with
    | (_, .error _) => none
    | (w, .ok ()) => insertAll w calls

/-- The chunks of a file with the path that their tags carry. -/
def fileChunks (file : PathBuf) (text : Text) : List (String × Chunk) :=
  (chunksOf file text).map fun c => (relpath root file, c)

/-- The chunks of the files, in order. -/
def plan (files : List (PathBuf × Text)) : List (String × Chunk) :=
  files.flatMap fun f => fileChunks root f.1 f.2

/-- The accepted insert of a chunk with its vector, under the id `id`. -/
def chunkCall (id : UInt64) (c : (String × Chunk) × List F) : InsertCall F :=
  { recordId := ⟨id⟩
    embedding := c.2
    shareable := opts.shareable
    tags := opts.tags ++ [srcTag c.1.1 c.1.2]
    payload := utf8 c.1.2.text
    accepted := true }

/-- Inserts under consecutive ids from `next`. -/
def callsFrom (next : UInt64) : List ((String × Chunk) × List F) → List (InsertCall F)
  | [] => []
  | c :: cs => chunkCall opts next c :: callsFrom (next + 1) cs

/-- The inserts of a run: the `k`-th chunk of the plan has the id `start_id + k`. -/
def planCalls (files : List (PathBuf × Text)) (vectors : List (List F)) : List (InsertCall F) :=
  ((plan root files).zip vectors).mapIdx fun k c =>
    chunkCall opts (UInt64.ofNat (opts.startId.toNat + k)) c

/-- The statistics of a run over the files, from the plan alone. -/
def planStats (files : List (PathBuf × Text)) : IngestStats where
  files := files.length
  chunks := (plan root files).length
  words := ((plan root files).map fun c => wordCount c.2.text).sum
  nextId := UInt64.ofNat (opts.startId.toNat + (plan root files).length)

variable {E T opts root}

@[simp] theorem plan_cons (f : PathBuf × Text) (files : List (PathBuf × Text)) :
    plan root (f :: files) = fileChunks root f.1 f.2 ++ plan root files := rfl

theorem plan_append (files files' : List (PathBuf × Text)) :
    plan root (files ++ files') = plan root files ++ plan root files' :=
  List.flatMap_append

theorem embedAll_length {m m' : M} {texts : List Text} {vs : List (List F)}
    (h : embedAll E m texts = some (m', vs)) : vs.length = texts.length := by
  induction texts generalizing m vs with
  | nil =>
    simp only [embedAll, Option.some.injEq, Prod.mk.injEq] at h
    rw [← h.2]
    rfl
  | cons text texts ih =>
    unfold embedAll at h
    split at h
    · simp at h
    · obtain ⟨⟨m₁, vs₁⟩, hrest, heq⟩ := Option.map_eq_some_iff.1 h
      cases heq
      rw [List.length_cons, List.length_cons, ih hrest]

/-- Embedding a list in two parts. -/
theorem embedAll_append {m m' : M} {xs ys : List Text} {vs : List (List F)}
    (h : embedAll E m (xs ++ ys) = some (m', vs)) :
    ∃ m₁ us ws, embedAll E m xs = some (m₁, us) ∧ embedAll E m₁ ys = some (m', ws) ∧
      vs = us ++ ws := by
  induction xs generalizing m vs with
  | nil => exact ⟨m, [], vs, rfl, h, rfl⟩
  | cons text xs ih =>
    rw [List.cons_append, embedAll] at h
    split at h
    · simp at h
    · rename_i m₁ v hv
      obtain ⟨⟨m₂, vs₂⟩, hrest, heq⟩ := Option.map_eq_some_iff.1 h
      cases heq
      obtain ⟨m₃, us, ws, hx, hy, hvs⟩ := ih hrest
      refine ⟨m₃, v :: us, ws, ?_, hy, ?_⟩
      · rw [embedAll, hv]
        dsimp only
        rw [hx]
        rfl
      · rw [hvs]
        rfl

theorem insertAll_append {w w' : W} {xs ys : List (InsertCall F)}
    (h : insertAll T w (xs ++ ys) = some w') :
    ∃ w₁, insertAll T w xs = some w₁ ∧ insertAll T w₁ ys = some w' := by
  induction xs generalizing w with
  | nil => exact ⟨w, rfl, h⟩
  | cons c xs ih =>
    rw [List.cons_append, insertAll] at h
    split at h
    · simp at h
    · rename_i w₁ hw
      obtain ⟨w₂, hx, hy⟩ := ih h
      refine ⟨w₂, ?_, hy⟩
      rw [insertAll, hw]
      exact hx

theorem callsFrom_append (next : UInt64) (xs ys : List ((String × Chunk) × List F)) :
    callsFrom opts next (xs ++ ys) =
      callsFrom opts next xs ++ callsFrom opts (next + UInt64.ofNat xs.length) ys := by
  induction xs generalizing next with
  | nil => simp [callsFrom]
  | cons x xs ih =>
    have hnext : next + 1 + UInt64.ofNat xs.length = next + UInt64.ofNat (x :: xs).length := by
      rw [List.length_cons, UInt64.ofNat_add, UInt64.add_assoc, UInt64.add_comm 1]
      rfl
    rw [List.cons_append, callsFrom, ih, callsFrom, List.cons_append, hnext]

/-- Counting up from `next` reaches `next + k` at the `k`-th chunk. -/
theorem callsFrom_eq_mapIdx (start : Nat) (cs : List ((String × Chunk) × List F)) :
    callsFrom opts (UInt64.ofNat start) cs =
      cs.mapIdx fun k c => chunkCall opts (UInt64.ofNat (start + k)) c := by
  induction cs generalizing start with
  | nil => rfl
  | cons c cs ih =>
    have hnext : UInt64.ofNat start + 1 = UInt64.ofNat (start + 1) := by
      rw [UInt64.ofNat_add]
      rfl
    have hshift : (fun k c => chunkCall (F := F) opts (UInt64.ofNat (start + 1 + k)) c) =
        fun k c => chunkCall opts (UInt64.ofNat (start + (k + 1))) c := by
      funext k c
      rw [Nat.add_assoc, Nat.add_comm 1]
    rw [callsFrom, hnext, ih, List.mapIdx_cons, hshift]
    rfl

/-! ## The loops follow the plan -/

variable (E T opts root)

/-- One file: the loop over its chunks. -/
theorem ingestChunks_plan (rel : String) (p : Pipeline M (W × List (Call F))) {cs : List Chunk}
    {m' : M} {vs : List (List F)} {w' : W}
    (hembed : embedAll E p.embedder (cs.map Chunk.text) = some (m', vs))
    (hinsert : insertAll T p.writer.1
      (callsFrom opts p.stats.nextId ((cs.map fun c => (rel, c)).zip vs)) = some w') :
    ingestChunks E (recorded T) opts rel p cs =
      (⟨m', (w', p.writer.2 ++
          (callsFrom opts p.stats.nextId ((cs.map fun c => (rel, c)).zip vs)).map .insert),
        cs.foldl IngestStats.addChunk p.stats⟩, .ok ()) := by
  induction cs generalizing p vs with
  | nil =>
    simp only [List.map_nil, embedAll, Option.some.injEq, Prod.mk.injEq] at hembed
    obtain ⟨rfl, rfl⟩ := hembed
    simp only [List.map_nil, List.zip_nil_left, callsFrom, insertAll, Option.some.injEq] at hinsert
    subst hinsert
    simp [ingestChunks, callsFrom]
  | cons c cs ih =>
    rw [List.map_cons, embedAll] at hembed
    split at hembed
    · simp at hembed
    · rename_i m₁ v hv
      obtain ⟨⟨m₂, ws⟩, hrest, heq⟩ := Option.map_eq_some_iff.1 hembed
      cases heq
      rw [List.map_cons, List.zip_cons_cons, callsFrom, insertAll] at hinsert
      split at hinsert
      · simp at hinsert
      · rename_i w₁ hw
        -- one iteration: the chunk is embedded, inserted and counted
        have hstep : ingestChunk E (recorded T) opts rel p c =
            (⟨m₁, (w₁, p.writer.2 ++ [.insert (chunkCall opts p.stats.nextId ((rel, c), v))]),
              p.stats.addChunk c⟩, .ok ()) := by
          have hins : T.insert p.writer.1 ⟨p.stats.nextId⟩ v opts.shareable
              (opts.tags ++ [srcTag rel c]) (utf8 c.text) = (w₁, .ok ()) := hw
          rw [ingestChunk, hv]
          dsimp only
          rw [recorded_insert, hins]
          rfl
        rw [ingestChunks, hstep]
        dsimp only
        rw [ih _ hrest hinsert, List.map_cons, List.zip_cons_cons, callsFrom, List.map_cons,
          List.append_assoc]
        rfl

/-- The statistics after each file. -/
def progressFrom (stats : IngestStats) : List (PathBuf × Text) → List IngestStats
  | [] => []
  | f :: files =>
    let stats := ((chunksOf f.1 f.2).foldl IngestStats.addChunk stats).addFile
    stats :: progressFrom stats files

/-- The statistics after all files. -/
def statsFrom (stats : IngestStats) (files : List (PathBuf × Text)) : IngestStats :=
  files.foldl (fun stats f => ((chunksOf f.1 f.2).foldl IngestStats.addChunk stats).addFile) stats

theorem foldl_addChunk (stats : IngestStats) (cs : List Chunk) :
    cs.foldl IngestStats.addChunk stats =
      { stats with
        chunks := stats.chunks + cs.length
        words := stats.words + (cs.map fun c => wordCount c.text).sum
        nextId := stats.nextId + UInt64.ofNat cs.length } := by
  induction cs generalizing stats with
  | nil => simp
  | cons c cs ih =>
    rw [List.foldl_cons, ih, IngestStats.addChunk]
    simp only [List.length_cons, List.map_cons, List.sum_cons, IngestStats.mk.injEq, true_and]
    refine ⟨by omega, by omega, ?_⟩
    rw [UInt64.ofNat_add, UInt64.add_assoc, UInt64.add_comm 1]
    rfl

/-- All files: the outer loop. -/
theorem ingestFiles_plan (read : PathBuf → Except IoError Text)
    (p : Pipeline M (W × List (Call F))) {files : List (PathBuf × Text)}
    (hread : ∀ f ∈ files, read f.1 = .ok f.2) {m' : M} {vs : List (List F)} {w' : W}
    (hembed : embedAll E p.embedder ((plan root files).map fun c => c.2.text) = some (m', vs))
    (hinsert : insertAll T p.writer.1
      (callsFrom opts p.stats.nextId ((plan root files).zip vs)) = some w') :
    ingestFiles E (recorded T) opts root read p (files.map Prod.fst) =
      (⟨m', (w', p.writer.2 ++
          (callsFrom opts p.stats.nextId ((plan root files).zip vs)).map .insert),
        statsFrom p.stats files⟩, progressFrom p.stats files, .ok ()) := by
  induction files generalizing p vs with
  | nil =>
    simp only [plan, List.flatMap_nil, List.map_nil, embedAll, Option.some.injEq,
      Prod.mk.injEq] at hembed
    obtain ⟨rfl, rfl⟩ := hembed
    simp only [plan, List.flatMap_nil, List.zip_nil_left, callsFrom, insertAll,
      Option.some.injEq] at hinsert
    subst hinsert
    simp [ingestFiles, callsFrom, plan, statsFrom, progressFrom]
  | cons f files ih =>
    -- the first file takes its share of the vectors and of the calls
    rw [plan_cons, List.map_append] at hembed
    obtain ⟨m₁, us, ws, hfile, hrest, rfl⟩ := embedAll_append hembed
    have hlen : us.length = (fileChunks root f.1 f.2).length := by
      rw [embedAll_length hfile, List.length_map]
    have hzip : (plan root (f :: files)).zip (us ++ ws) =
        (fileChunks root f.1 f.2).zip us ++ (plan root files).zip ws := by
      rw [plan_cons, List.zip_append hlen.symm]
    have hcount : ((fileChunks root f.1 f.2).zip us).length = (chunksOf f.1 f.2).length := by
      rw [List.length_zip, hlen, Nat.min_self, fileChunks, List.length_map]
    rw [hzip, callsFrom_append] at hinsert
    obtain ⟨w₁, hcalls, hothers⟩ := insertAll_append hinsert
    have hfile' : embedAll E p.embedder ((chunksOf f.1 f.2).map Chunk.text) = some (m₁, us) := by
      rw [fileChunks, List.map_map] at hfile
      exact hfile
    have hchunks := ingestChunks_plan E T opts (relpath root f.1) p hfile' hcalls
    have hnext : ((chunksOf f.1 f.2).foldl IngestStats.addChunk p.stats).addFile.nextId =
        p.stats.nextId + UInt64.ofNat ((fileChunks root f.1 f.2).zip us).length := by
      rw [foldl_addChunk, hcount]
      rfl
    rw [← hnext] at hothers
    have hrun : ingestFile E (recorded T) opts root f.1 (read f.1) p =
        ingestChunks E (recorded T) opts (relpath root f.1) p (chunksOf f.1 f.2) := by
      rw [hread f List.mem_cons_self]
      rfl
    rw [List.map_cons, ingestFiles, hrun, hchunks]
    dsimp only
    rw [ih _ (fun g hg => hread g (List.mem_cons_of_mem _ hg)) hrest hothers, hzip,
      callsFrom_append, ← hnext, List.map_append, List.append_assoc]
    rfl

theorem statsFrom_eq (stats : IngestStats) (files : List (PathBuf × Text)) :
    statsFrom stats files =
      { files := stats.files + files.length
        chunks := stats.chunks + (plan root files).length
        words := stats.words + ((plan root files).map fun c => wordCount c.2.text).sum
        nextId := stats.nextId + UInt64.ofNat (plan root files).length } := by
  induction files generalizing stats with
  | nil => simp [statsFrom, plan]
  | cons f files ih =>
    have hlen : (fileChunks root f.1 f.2).length = (chunksOf f.1 f.2).length := by
      rw [fileChunks, List.length_map]
    have hwords : ((fileChunks root f.1 f.2).map fun c => wordCount c.2.text).sum =
        ((chunksOf f.1 f.2).map fun c => wordCount c.text).sum := by
      rw [fileChunks, List.map_map]
      rfl
    have hcons : statsFrom stats (f :: files) =
        statsFrom ((chunksOf f.1 f.2).foldl IngestStats.addChunk stats).addFile files := rfl
    rw [hcons, ih, foldl_addChunk]
    simp only [IngestStats.addFile, plan_cons, List.length_append, List.map_append,
      List.sum_append, hlen, hwords, List.length_cons, IngestStats.mk.injEq]
    refine ⟨by omega, by omega, by omega, ?_⟩
    rw [UInt64.ofNat_add, UInt64.add_assoc]

theorem progressFrom_eq (stats : IngestStats) (files : List (PathBuf × Text)) :
    progressFrom stats files =
      (List.range files.length).map fun i => statsFrom stats (files.take (i + 1)) := by
  induction files generalizing stats with
  | nil => rfl
  | cons f files ih =>
    rw [progressFrom, List.length_cons, List.range_succ_eq_map, List.map_cons, List.map_map, ih]
    rfl

theorem statsFrom_startingAt (files : List (PathBuf × Text)) :
    statsFrom (.startingAt opts.startId) files = planStats opts root files := by
  have hnext : opts.startId + UInt64.ofNat (plan root files).length =
      UInt64.ofNat (opts.startId.toNat + (plan root files).length) := by
    rw [UInt64.ofNat_add, UInt64.ofNat_toNat]
  rw [statsFrom_eq root, planStats, IngestStats.startingAt, ← hnext]
  simp

theorem planCalls_eq (files : List (PathBuf × Text)) (vs : List (List F)) :
    callsFrom opts opts.startId ((plan root files).zip vs) = planCalls opts root files vs := by
  have h : callsFrom opts (UInt64.ofNat opts.startId.toNat) ((plan root files).zip vs) =
      planCalls opts root files vs := callsFrom_eq_mapIdx _ _
  rwa [UInt64.ofNat_toNat] at h

/-- A run that wrote exactly the plan: one accepted insert for each chunk, then one flush;
`progress` was told the statistics of the plan after each file, and the result is those of the
whole plan. -/
structure ExactRun (files : List (PathBuf × Text)) (vs : List (List F)) (w' : W)
    (run : TreeRun M (W × List (Call F)) Err) : Prop where
  calls : run.writer.2 =
    (planCalls opts root files vs).map .insert ++ [.flush (T.flush w').2.isOk]
  ids : (planCalls opts root files vs).map (fun c => c.recordId.val.toNat) =
    (List.range (plan root files).length).map fun k => opts.startId.toNat + k
  progress : run.progress =
    (List.range files.length).map fun i => planStats opts root (files.take (i + 1))
  result : run.result =
    match (T.flush w').2 with
    | .ok () => .ok (planStats opts root files)
    | .error e => .error (.flush e)
  nextId : ∀ i, (planStats opts root (files.take i)).nextId.toNat =
    opts.startId.toNat + (planStats opts root (files.take i)).chunks

theorem ingestCollected_exact (read : PathBuf → Except IoError Text)
    {files : List (PathBuf × Text)} (hread : ∀ f ∈ files, read f.1 = .ok f.2) {embedder m' : M}
    {writer w' : W} {vs : List (List F)}
    (hembed : embedAll E embedder ((plan root files).map fun c => c.2.text) = some (m', vs))
    (hinsert : insertAll T writer (planCalls opts root files vs) = some w')
    (hids : opts.startId.toNat + (plan root files).length < UInt64.size) :
    ExactRun T opts root files vs w'
      (ingestCollected E (recorded T) opts root read embedder (writer, [])
        (files.map Prod.fst)) := by
  have hcalls := hinsert
  rw [← planCalls_eq] at hcalls
  have hloop : ingestFiles E (recorded T) opts root read
      ⟨embedder, (writer, []), .startingAt opts.startId⟩ (files.map Prod.fst) =
      (⟨m', (w', (planCalls opts root files vs).map .insert), planStats opts root files⟩,
        (List.range files.length).map fun i => planStats opts root (files.take (i + 1)),
        .ok ()) := by
    rw [ingestFiles_plan E T opts root read _ hread hembed hcalls, progressFrom_eq]
    simp only [statsFrom_startingAt opts root, List.nil_append]
    rw [← planCalls_eq]
    rfl
  have hlen : vs.length = (plan root files).length := by
    rw [embedAll_length hembed, List.length_map]
  have hid : ∀ k, k ≤ (plan root files).length →
      (UInt64.ofNat (opts.startId.toNat + k)).toNat = opts.startId.toNat + k := fun k hk =>
    UInt64.toNat_ofNat_of_lt (by omega)
  have hrun : ingestCollected E (recorded T) opts root read embedder (writer, [])
      (files.map Prod.fst) =
      ⟨m', ((T.flush w').1, (planCalls opts root files vs).map .insert ++
          [.flush (T.flush w').2.isOk]),
        (List.range files.length).map fun i => planStats opts root (files.take (i + 1)),
        match (T.flush w').2 with
        | .ok () => .ok (planStats opts root files)
        | .error e => .error (.flush e)⟩ := by
    rw [ingestCollected, hloop]
    dsimp only [recorded]
    cases (T.flush w').2 with
    | ok u => rfl
    | error e => rfl
  rw [hrun]
  refine ⟨rfl, ?_, rfl, rfl, ?_⟩
  · apply List.ext_getElem
    · simp [planCalls, hlen]
    · intro k hk hk'
      simp only [List.length_map, List.length_range] at hk'
      simp only [planCalls, List.getElem_mapIdx, List.getElem_map, List.getElem_range, chunkCall]
      exact hid k (Nat.le_of_lt hk')
  · intro i
    apply hid
    -- fewer files have fewer chunks
    have hsplit : plan root files = plan root (files.take i) ++ plan root (files.drop i) := by
      rw [← plan_append, List.take_append_drop]
    rw [hsplit, List.length_append]
    exact Nat.le_add_right _ _

/-- For every directory tree or single file whose collected files can be read, every embedder that
succeeds on the planned chunks and every writer that accepts the planned inserts, a run of
`ingest_tree` writes exactly the plan. -/
theorem ingestTree_exact (read : PathBuf → Except IoError Text) {os : Os} {n fuel : Nat}
    (hdepth : DepthLE os n root) (hfuel : n < fuel) :
    ∃ paths, collectFiles os opts fuel root = some paths ∧
      ∀ (files : List (PathBuf × Text)) (embedder m' : M) (writer w' : W) (vs : List (List F)),
        files.map Prod.fst = paths → (∀ f ∈ files, read f.1 = .ok f.2) →
        E.dim embedder = T.embeddingDim writer →
        embedAll E embedder ((plan root files).map fun c => c.2.text) = some (m', vs) →
        insertAll T writer (planCalls opts root files vs) = some w' →
        opts.startId.toNat + (plan root files).length < UInt64.size →
        ∃ run, ingestTree E (recorded T) opts root read os fuel embedder (writer, []) =
            some run ∧ ExactRun T opts root files vs w' run := by
  have hsome : (collectFiles os opts fuel root).isSome = true := collectFiles_isSome hdepth hfuel
  obtain ⟨paths, hpaths⟩ := Option.isSome_iff_exists.1 hsome
  refine ⟨paths, hpaths, ?_⟩
  rintro files embedder m' writer w' vs rfl hread hdim hembed hinsert hids
  refine ⟨_, ?_, ingestCollected_exact E T opts root read hread hembed hinsert hids⟩
  have hdim' : ¬ E.dim embedder ≠ (recorded T).embeddingDim (writer, []) := not_not.2 hdim
  rw [ingestTree, if_neg hdim', hpaths, Option.map_some]

end Plan

section Notes

open Reference

/-- A directory with two Markdown files, enumerated out of order, a program and an empty
subdirectory. -/
def notesOs : Os where
  isFile path := ["a.md", "b.md", "main.rs"].any fun name => path = notes.join name
  isDir path := path = notes || path = notes.join "old"
  readDir path :=
    if path = notes then some [some "b.md", some "main.rs", none, some "old", some "a.md"]
    else if path = notes.join "old" then some []
    else none

def readNotes (path : PathBuf) : Except IoError Text :=
  if path = notes.join "a.md" then .ok "one two\n\nthree\n".toList else .ok "\n four\n".toList

/-- The Markdown files in order, with their texts. -/
def noteFiles : List (PathBuf × Text) :=
  [(notes.join "a.md", "one two\n\nthree\n".toList), (notes.join "b.md", "\n four\n".toList)]

theorem depthLE_notes : DepthLE notesOs 1 notes := by
  intro path hpath hdir
  have hold : path = notes.join "old" := by
    have hne : path ≠ notes := by
      rintro rfl
      revert hpath
      decide
    simpa [notesOs, hne] using hdir
  rw [hold]
  intro path' hpath'
  revert hpath'
  have hentries : notesOs.entries (notes.join "old") = [] := by decide
  rw [hentries]
  simp

theorem ingestTree_exact_example :
    ∃ vs w' run, ingestTree scripted (recorded vaultWriter) markdown notes readNotes notesOs 2 []
        (vault, []) = some run ∧ ExactRun vaultWriter markdown notes noteFiles vs w' run := by
  obtain ⟨paths, hpaths, hexact⟩ :=
    ingestTree_exact scripted vaultWriter markdown notes readNotes depthLE_notes (by decide : 1 < 2)
  have hfiles : collectFiles notesOs markdown 2 notes = some (noteFiles.map Prod.fst) := by
    decide +kernel
  have hpaths' : noteFiles.map Prod.fst = paths := by
    rw [hfiles] at hpaths
    exact Option.some.inj hpaths
  have hinsert : (insertAll vaultWriter vault
      (planCalls markdown notes noteFiles [[7], [5], [5]])).isSome = true := by decide +kernel
  obtain ⟨w', hw'⟩ := Option.isSome_iff_exists.1 hinsert
  have hread : ∀ f ∈ noteFiles, readNotes f.1 = .ok f.2 := by decide
  obtain ⟨run, hrun, hdone⟩ := hexact noteFiles [] [] vault w' [[7], [5], [5]] hpaths' hread
    (by decide +kernel) (by decide +kernel) hw' (by decide +kernel)
  exact ⟨_, w', run, hrun, hdone⟩

end Notes

end SkegRigging.Ingest
