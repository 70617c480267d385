import SkegRigging.Ingest.Lines
import SkegRigging.Ingest.Tree
import SkegRigging.Library.MaximalRuns

/-!
# What the paragraphs of a text are

The loop of `paragraphs` is a scan for the maximal runs of non-blank lines: its buffer is the open
run, and it has pushed the closed ones (`Paragraphs.Scanned`). So its chunks are the maximal runs in
order (`chunk_paragraph_exact`), and the dropped lines are blank, so that every word is kept
(`chunk_paragraph_words`).
-/

set_option autoImplicit false

namespace SkegRigging.Ingest

open MaximalRuns Reference

/-- The chunk of the lines `run`, which `pre` precedes. -/
def paragraph (pre run : List Text) : Chunk :=
  ⟨join run, pre.length + 1, pre.length + run.length⟩

/-- The chunks after the open paragraph ends at the line `hi`. -/
def Paragraphs.closed (s : Paragraphs) (hi : Nat) : List Chunk :=
  if s.buf.isEmpty then s.out else pushPara s.out s.buf s.start hi

theorem Paragraphs.next_blank {s : Paragraphs} {line : Text} {i : Nat}
    (h : nonblank line = false) : s.next line i = ⟨s.closed i, [], i + 2⟩ := by
  rw [Paragraphs.next, if_pos (nonblank_eq_false.1 h)]
  rfl

theorem Paragraphs.next_nonblank_line {s : Paragraphs} {line : Text} {i : Nat}
    (h : nonblank line = true) :
    s.next line i = ⟨s.out, s.buf ++ [line], if s.buf.isEmpty then i + 1 else s.start⟩ := by
  rw [nonblank, Bool.not_eq_true'] at h
  rw [Paragraphs.next, h]
  rfl

theorem paragraphs_closed (text : Text) :
    paragraphs text =
      (Paragraphs.loop ⟨[], [], 1⟩ (lines text).zipIdx).closed (lines text).length := rfl

/-- Lines that are not blank do not make a blank paragraph. -/
theorem pushPara_eq {out : List Chunk} {buf : List Text} {lo hi : Nat} (hne : buf ≠ [])
    (h : ∀ line ∈ buf, nonblank line = true) :
    pushPara out buf lo hi = out ++ [⟨join buf, lo, hi⟩] := by
  obtain ⟨line, rest, rfl⟩ := List.exists_cons_of_ne_nil hne
  have hline : trim line ≠ [] := nonblank_iff.1 (h line List.mem_cons_self)
  have hjoin : trim (join (line :: rest)) ≠ [] := fun hblank =>
    hline (trim_join_eq_nil.1 hblank line List.mem_cons_self)
  rw [pushPara, if_neg]
  rwa [List.isEmpty_iff]

/-! ## The loop -/

/-- After the lines `done` the buffer is their open run, which `first` precedes, and the chunks are
those of the closed runs. -/
structure Paragraphs.Scanned (s : Paragraphs) (done first : List Text) : Prop where
  split : done = first ++ s.buf
  stretch : OpenRun nonblank first s.buf
  start : s.buf ≠ [] → s.start = first.length + 1
  chunks : ∀ c, c ∈ s.out ↔ ∃ pre run, ClosedRun nonblank done pre run ∧ c = paragraph pre run
  ordered : s.out.Pairwise fun c d => c.lineHi < d.lineLo

theorem Paragraphs.Scanned.initial : Paragraphs.Scanned ⟨[], [], 1⟩ [] [] := by
  refine ⟨rfl, ⟨by simp, by simp⟩, fun h => absurd rfl h, fun c => ?_, List.Pairwise.nil⟩
  apply iff_of_false List.not_mem_nil
  rintro ⟨pre, run, hrun, -⟩
  exact not_closedRun_nil hrun

section Closed

variable {s : Paragraphs} {done first : List Text}

/-- Closing the open run appends its paragraph. -/
theorem Paragraphs.Scanned.closed_eq (h : s.Scanned done first) (hne : s.buf ≠ []) :
    s.closed done.length = s.out ++ [paragraph first s.buf] := by
  have hlen : done.length = first.length + s.buf.length := by
    rw [h.split, List.length_append]
  rw [closed, if_neg (by rwa [List.isEmpty_iff]), pushPara_eq hne h.stretch.inside, h.start hne,
    hlen]
  rfl

theorem Paragraphs.Scanned.mem_closed (h : s.Scanned done first) (c : Chunk) :
    c ∈ s.closed done.length ↔
      ∃ pre run, (ClosedRun nonblank done pre run ∨ (s.buf ≠ [] ∧ pre = first ∧ run = s.buf)) ∧
        c = paragraph pre run := by
  by_cases hne : s.buf = []
  · have hclosed : s.closed done.length = s.out := if_pos (List.isEmpty_iff.2 hne)
    rw [hclosed, h.chunks c]
    simp [hne]
  · rw [h.closed_eq hne, List.mem_append, h.chunks c, List.mem_singleton]
    constructor
    · rintro (⟨pre, run, hrun, rfl⟩ | rfl)
      · exact ⟨pre, run, Or.inl hrun, rfl⟩
      · exact ⟨first, s.buf, Or.inr ⟨hne, rfl, rfl⟩, rfl⟩
    · rintro ⟨pre, run, hrun | ⟨-, rfl, rfl⟩, rfl⟩
      · exact Or.inl ⟨pre, run, hrun, rfl⟩
      · exact Or.inr rfl

theorem Paragraphs.Scanned.maximalRun_iff (h : s.Scanned done first) {pre run : List Text} :
    MaximalRun nonblank done pre run ↔
      ClosedRun nonblank done pre run ∨ (s.buf ≠ [] ∧ pre = first ∧ run = s.buf) := by
  rw [h.split]
  exact MaximalRuns.maximalRun_iff h.stretch

theorem Paragraphs.Scanned.ordered_closed (h : s.Scanned done first) :
    (s.closed done.length).Pairwise fun c d => c.lineHi < d.lineLo := by
  by_cases hne : s.buf = []
  · have hclosed : s.closed done.length = s.out := if_pos (List.isEmpty_iff.2 hne)
    rw [hclosed]
    exact h.ordered
  · rw [h.closed_eq hne, List.pairwise_append]
    refine ⟨h.ordered, List.pairwise_singleton _ _, ?_⟩
    intro c hc d hd
    obtain ⟨pre, run, hrun, rfl⟩ := (h.chunks c).1 hc
    rw [h.split] at hrun
    have hle := hrun.length_le h.stretch
    rw [List.mem_singleton.1 hd]
    simp only [paragraph]
    omega

/-- One iteration reads one more line. -/
theorem Paragraphs.Scanned.next (h : s.Scanned done first) (line : Text) :
    ∃ first', (s.next line done.length).Scanned (done ++ [line]) first' := by
  cases hline : nonblank line with
  | false =>
    -- a blank line closes the open run, and the next one begins after it
    rw [Paragraphs.next_blank hline]
    refine ⟨done ++ [line], by simp, OpenRun.stop done hline, fun hne => absurd rfl hne, ?_,
      h.ordered_closed⟩
    intro c
    rw [h.mem_closed c]
    simp only [h.split, closedRun_concat_stop h.stretch hline]
  | true =>
    rw [Paragraphs.next_nonblank_line hline]
    refine ⟨first, by simp [h.split], h.stretch.concat hline, fun _ => ?_, fun c => ?_, h.ordered⟩
    · -- the first line of a run fixes where it starts
      by_cases hbuf : s.buf = []
      · have hdone : done = first := by rw [h.split, hbuf, List.append_nil]
        simp [hbuf, hdone]
      · simp [hbuf, h.start hbuf]
    · simp only [closedRun_concat_open hline]
      exact h.chunks c

/-- The whole loop. -/
theorem Paragraphs.Scanned.loop (h : s.Scanned done first) (rest : List Text) :
    ∃ first', (s.loop (rest.zipIdx done.length)).Scanned (done ++ rest) first' := by
  induction rest generalizing s done first with
  | nil =>
    rw [List.append_nil]
    exact ⟨first, h⟩
  | cons line rest ih =>
    obtain ⟨first', hnext⟩ := h.next line
    obtain ⟨first'', hloop⟩ := ih hnext
    rw [List.length_append, List.length_singleton, List.append_assoc] at hloop
    exact ⟨first'', hloop⟩

end Closed

theorem paragraphs_scanned (text : Text) :
    ∃ first, (Paragraphs.loop ⟨[], [], 1⟩ (lines text).zipIdx).Scanned (lines text) first :=
  Paragraphs.Scanned.initial.loop (lines text)

/-- No line is in two paragraphs. -/
theorem paragraphs_ordered (text : Text) :
    (paragraphs text).Pairwise fun c d => c.lineHi < d.lineLo := by
  obtain ⟨first, hscan⟩ := paragraphs_scanned text
  rw [paragraphs_closed]
  exact hscan.ordered_closed

/-- A paragraph has a first and a last line. -/
theorem paragraphs_lineLo_le {text : Text} {c : Chunk} (h : c ∈ paragraphs text) :
    c.lineLo ≤ c.lineHi := by
  obtain ⟨first, hscan⟩ := paragraphs_scanned text
  rw [paragraphs_closed, hscan.mem_closed c] at h
  obtain ⟨pre, run, hrun, rfl⟩ := h
  have hpos : 0 < run.length := List.length_pos_of_ne_nil (hscan.maximalRun_iff.2 hrun).nonempty
  simp only [paragraph]
  omega

/-- The paragraph chunks of a text are exactly the maximal runs of its non-blank lines, each with
its lines joined and the numbers of its first and last line, in the order of the text. -/
theorem chunk_paragraph_exact (text : Text) :
    ((chunk text .paragraph).Pairwise fun c d => c.lineHi < d.lineLo) ∧
      ∀ c, c ∈ chunk text .paragraph ↔
        ∃ pre run, MaximalRun nonblank (lines text) pre run ∧
          c = ⟨join run, pre.length + 1, pre.length + run.length⟩ := by
  refine ⟨paragraphs_ordered text, fun c => ?_⟩
  obtain ⟨first, hscan⟩ := paragraphs_scanned text
  rw [chunk, paragraphs_closed, hscan.mem_closed c]
  simp only [hscan.maximalRun_iff]
  rfl

/-! ## Words -/

/-- The words of some chunks, in order. -/
def chunkWords (chunks : List Chunk) : List Text :=
  chunks.flatMap fun c => splitWhitespace c.text

theorem chunkWords_append (xs ys : List Chunk) :
    chunkWords (xs ++ ys) = chunkWords xs ++ chunkWords ys := List.flatMap_append

/-- A paragraph keeps the words of its lines; one that is dropped has none. -/
theorem chunkWords_pushPara (out : List Chunk) (buf : List Text) (lo hi : Nat) :
    chunkWords (pushPara out buf lo hi) = chunkWords out ++ buf.flatMap splitWhitespace := by
  rw [← splitWhitespace_join]
  simp only [pushPara]
  split
  · rename_i hblank
    rw [splitWhitespace_blank (List.isEmpty_iff.1 hblank), List.append_nil]
  · rw [chunkWords_append]
    simp [chunkWords]

theorem Paragraphs.chunkWords_closed (s : Paragraphs) (hi : Nat) :
    chunkWords (s.closed hi) = chunkWords s.out ++ s.buf.flatMap splitWhitespace := by
  rw [closed]
  split
  · rename_i hbuf
    rw [List.isEmpty_iff.1 hbuf, List.flatMap_nil, List.append_nil]
  · exact chunkWords_pushPara _ _ _ _

/-- One iteration keeps the words of its line, in a chunk or in the buffer. -/
theorem Paragraphs.chunkWords_next (s : Paragraphs) (line : Text) (i : Nat) :
    chunkWords (s.next line i).out ++ (s.next line i).buf.flatMap splitWhitespace =
      chunkWords s.out ++ s.buf.flatMap splitWhitespace ++ splitWhitespace line := by
  cases hline : nonblank line with
  | false =>
    have hblank : trim line = [] := List.isEmpty_iff.1 (nonblank_eq_false.1 hline)
    rw [Paragraphs.next_blank hline, chunkWords_closed, splitWhitespace_blank hblank]
    rfl
  | true =>
    rw [Paragraphs.next_nonblank_line hline, List.flatMap_append, List.append_assoc]
    simp

theorem Paragraphs.chunkWords_loop (s : Paragraphs) (rest : List Text) (i : Nat) :
    chunkWords (s.loop (rest.zipIdx i)).out ++
        (s.loop (rest.zipIdx i)).buf.flatMap splitWhitespace =
      chunkWords s.out ++ s.buf.flatMap splitWhitespace ++ rest.flatMap splitWhitespace := by
  induction rest generalizing s i with
  | nil =>
    rw [List.flatMap_nil, List.append_nil]
    rfl
  | cons line rest ih =>
    rw [List.flatMap_cons, ← List.append_assoc, ← s.chunkWords_next line i]
    exact ih _ (i + 1)

theorem chunkWords_paragraphs (text : Text) :
    chunkWords (paragraphs text) = splitWhitespace text := by
  rw [paragraphs_closed, Paragraphs.chunkWords_closed, Paragraphs.chunkWords_loop,
    splitWhitespace_lines]
  rfl

theorem sum_wordCount (cs : List Chunk) :
    (cs.map fun c => wordCount c.text).sum = (chunkWords cs).length := by
  rw [chunkWords, List.length_flatMap]
  rfl

theorem sum_wordCount_paragraphs (text : Text) :
    ((paragraphs text).map fun c => wordCount c.text).sum = wordCount text := by
  rw [sum_wordCount, chunkWords_paragraphs]
  rfl

/-- The extensions of prose. -/
def proseExts : List String := ["md", "mdx", "txt", "rst"]

theorem chunksOf_prose {file : PathBuf} (h : file.extension.getD "" ∈ proseExts) (text : Text) :
    chunksOf file text = paragraphs text := by
  have hmode : ∀ ext ∈ proseExts, ChunkMode.forExt ext = .paragraph := by decide
  rw [chunksOf, hmode _ h]
  rfl

/-- The words of the paragraphs of a text, in order, are the words of the text. So the counts of
the chunks add up to the count of the text, and this is what a prose file that is ingested adds to
the statistics. -/
theorem chunk_paragraph_words (text : Text) :
    chunkWords (chunk text .paragraph) = splitWhitespace text ∧
      ((chunk text .paragraph).map fun c => wordCount c.text).sum = wordCount text ∧
      ∀ {M W F Err : Type} (E : Embed M F) (T : TenantWrite W F Err) (opts : IngestOptions)
        (root file : PathBuf) (p q : Pipeline M W), file.extension.getD "" ∈ proseExts →
          ingestFile E T opts root file (.ok text) p = (q, .ok ()) →
            q.stats.words = p.stats.words + wordCount text := by
  refine ⟨chunkWords_paragraphs text, sum_wordCount_paragraphs text, ?_⟩
  intro M W F Err E T opts root file p q hprose hrun
  rw [ingestFile, chunksOf_prose hprose] at hrun
  rw [(ingestChunks_taken E T opts _ hrun).2 rfl, foldl_addChunk]
  dsimp only
  rw [sum_wordCount_paragraphs]

/-- A note with two paragraphs, between them a blank line and one of white space. -/
def spacedNote : Text := "one two\r\n\r\n \nthree".toList

theorem chunk_paragraph_words_note :
    ∃ q, ingestFile scripted vaultWriter markdown notes (notes.join "a.md") (.ok spacedNote)
        ⟨[], vault, .startingAt 0⟩ = (q, .ok ()) ∧ q.stats.words = 0 + wordCount spacedNote := by
  rcases hrun : ingestFile scripted vaultWriter markdown notes (notes.join "a.md") (.ok spacedNote)
    ⟨[], vault, .startingAt 0⟩ with ⟨q, e | ⟨⟩⟩
  · have hok : (ingestFile scripted vaultWriter markdown notes (notes.join "a.md") (.ok spacedNote)
        ⟨[], vault, .startingAt 0⟩).2.isOk = true := by decide +kernel
    rw [hrun] at hok
    exact absurd hok Bool.false_ne_true
  · exact ⟨q, rfl, (chunk_paragraph_words spacedNote).2.2 scripted vaultWriter markdown notes
      (notes.join "a.md") ⟨[], vault, .startingAt 0⟩ q (by decide) hrun⟩

end SkegRigging.Ingest
