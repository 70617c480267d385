import SkegRigging.Ingest.Collect
import SkegRigging.Ingest.Paragraphs
import SkegRigging.Ingest.Retry
import SkegRigging.Ingest.Windows

/-!
# Provenance tags

The tag `src:<rel>:<lo>-<hi>` of a record is read back from its end, where the line numbers hold
neither a colon nor a hyphen (`decodeTag`). Below a directory the relative path gives the file back,
and two chunks of one file differ in their lines, so no two records of a run have the same tag
(`srcTag_unique`).

When the root is itself a file, the relative path is empty: `strip_prefix` succeeds with nothing
left, and the file name that `relpath` would fall back to is not used (`namesFile_iff`).
-/

set_option autoImplicit false

namespace SkegRigging.Ingest

/-! ## Reading a tag -/

/-- What precedes and what follows the last `c`. -/
def splitLast (c : Char) (s : Text) : Option (Text × Text) :=
  let after := s.reverse.takeWhile (· ≠ c)
  match s.reverse.drop after.length with
  | [] => none
  | _ :: before => some (before.reverse, after.reverse)

/-- The path and the line numbers of a tag: it is cut at its last colon and its last hyphen. -/
def decodeTag (tag : String) : Option (String × Nat × Nat) := do
  let (rel, range) ← splitLast ':' (tag.toList.drop "src:".length)
  let (lo, hi) ← splitLast '-' range
  some (String.ofList rel, Nat.ofDigitChars 10 lo 0, Nat.ofDigitChars 10 hi 0)

theorem splitLast_append {c : Char} (before : Text) {after : Text} (h : c ∉ after) :
    splitLast c (before ++ c :: after) = some (before, after) := by
  have hreverse : (before ++ c :: after).reverse = after.reverse ++ c :: before.reverse := by simp
  have htake : (after.reverse ++ c :: before.reverse).takeWhile (· ≠ c) = after.reverse := by
    rw [List.takeWhile_append_of_pos, List.takeWhile_cons_of_neg (by simp), List.append_nil]
    intro d hd
    rw [List.mem_reverse] at hd
    exact decide_eq_true (ne_of_mem_of_not_mem hd h)
  rw [splitLast, hreverse, htake]
  simp

/-- Line numbers are written with digits. -/
theorem not_mem_toString {c : Char} (hc : c.isDigit = false) (n : Nat) :
    c ∉ (toString n).toList := by
  rw [Nat.toString_eq_ofList_toDigits, String.toList_ofList]
  intro hmem
  rw [Nat.isDigit_of_mem_toDigits (by decide) (by decide) hmem] at hc
  exact Bool.false_ne_true hc.symm

theorem ofDigitChars_toString (n : Nat) : Nat.ofDigitChars 10 (toString n).toList 0 = n := by
  rw [Nat.toString_eq_ofList_toDigits, String.toList_ofList, Nat.ofDigitChars_ten_toDigits]

/-- A tag determines the path and the lines that it was made of. -/
theorem decodeTag_srcTag (rel : String) (c : Chunk) :
    decodeTag (srcTag rel c) = some (rel, c.lineLo, c.lineHi) := by
  have hrange : ':' ∉ (toString c.lineLo).toList ++ '-' :: (toString c.lineHi).toList := by
    rw [List.mem_append, List.mem_cons]
    rintro (hlo | hyphen | hhi)
    · exact not_mem_toString (by decide) _ hlo
    · exact absurd hyphen (by decide)
    · exact not_mem_toString (by decide) _ hhi
  have htag : (srcTag rel c).toList.drop "src:".length =
      rel.toList ++ ':' :: ((toString c.lineLo).toList ++ '-' :: (toString c.lineHi).toList) := by
    have hlen : "src:".length = 4 := by decide
    rw [hlen]
    simp [srcTag, String.toList_append, List.append_assoc]
  rw [decodeTag, htag, splitLast_append _ hrange]
  dsimp only [bind, Option.bind]
  rw [splitLast_append _ (not_mem_toString (by decide) _)]
  dsimp only
  rw [String.ofList_toList, ofDigitChars_toString, ofDigitChars_toString]

theorem srcTag_inj {rel rel' : String} {c d : Chunk} (h : srcTag rel c = srcTag rel' d) :
    rel = rel' ∧ (c.lineLo, c.lineHi) = (d.lineLo, d.lineHi) := by
  have hdecode := congrArg decodeTag h
  rw [decodeTag_srcTag, decodeTag_srcTag, Option.some.injEq, Prod.mk.injEq] at hdecode
  exact hdecode

/-! ## The path in a tag -/

/-- The path part of the tags of `file` names it: joined to the root it gives the file, or it is the
name of the root where that is the file itself. -/
def NamesFile (os : Os) (root file : PathBuf) : Prop :=
  relpath root file ≠ "" ∧
    if os.isFile root then file.fileName = some (relpath root file)
    else root.joinStr (relpath root file) = file

instance NamesFile.decidable (os : Os) (root file : PathBuf) : Decidable (NamesFile os root file) :=
  inferInstanceAs (Decidable (_ ∧ _))

variable {os : Os} {opts : IngestOptions} {root : PathBuf}

theorem namesFile_of_below {file : PathBuf} (hos : os.Lawful) (hroot : os.isFile root = false)
    (h : Below os root file) : NamesFile os root file := by
  obtain ⟨names, hne, hnames, rfl⟩ := h.joins hos
  rw [NamesFile, hroot, if_neg Bool.false_ne_true, PathBuf.joinStr,
    segments_relpath root hne hnames]
  exact ⟨relpath_ne_empty hne hnames, rfl⟩

theorem relpath_self (root : PathBuf) : relpath root root = "" := by
  have hself := relpath_joins root []
  rw [PathBuf.joins_nil] at hself
  rw [hself]
  rfl

/-- The path part of a tag names a collected file exactly when the root is not a single file. -/
theorem namesFile_iff (hos : os.Lawful) {fuel : Nat} {paths : List PathBuf}
    (h : collectFiles os opts fuel root = some paths) {file : PathBuf} (hfile : file ∈ paths) :
    NamesFile os root file ↔ os.isFile root = false := by
  constructor
  · rintro ⟨hne, -⟩
    by_contra hroot
    rw [Bool.not_eq_false] at hroot
    rw [((mem_collectFiles_file hroot h).1 hfile).1, relpath_self] at hne
    exact hne rfl
  · intro hroot
    exact namesFile_of_below hos hroot ((mem_collectFiles hos hroot h).1 hfile).1

/-! ## The tags of a run -/

/-- Two chunks of one text are chunks of different lines. -/
theorem chunk_ranges (text : Text) (mode : ChunkMode) :
    (chunk text mode).Pairwise fun c d => (c.lineLo, c.lineHi) ≠ (d.lineLo, d.lineHi) := by
  cases mode with
  | paragraph =>
    refine (paragraphs_ordered text).imp_of_mem fun {c d} hc _ hlt heq => ?_
    rw [Prod.mk.injEq] at heq
    have hle := paragraphs_lineLo_le hc
    omega
  | lines win step =>
    have hpos : 0 < max step 1 := by omega
    refine (windowsFrom_ordered hpos _ _).imp fun {c d} hlt heq => ?_
    rw [Prod.mk.injEq] at heq
    omega

/-- The tags of the chunks of a file, if it can be read. -/
def fileTags (root : PathBuf) (read : PathBuf → Except IoError Text) (file : PathBuf) :
    List String :=
  match read file with
  | .error _ => []
  | .ok text => (chunksOf file text).map (srcTag (relpath root file))

theorem fileTags_error {read : PathBuf → Except IoError Text} {file : PathBuf} {e : IoError}
    (h : read file = .error e) : fileTags root read file = [] := by
  rw [fileTags, h]

theorem fileTags_ok {read : PathBuf → Except IoError Text} {file : PathBuf} {text : Text}
    (h : read file = .ok text) :
    fileTags root read file = (chunksOf file text).map (srcTag (relpath root file)) := by
  rw [fileTags, h]

theorem mem_fileTags {read : PathBuf → Except IoError Text} {file : PathBuf} {tag : String} :
    tag ∈ fileTags root read file ↔ ∃ text, read file = .ok text ∧
      ∃ c ∈ chunksOf file text, srcTag (relpath root file) c = tag := by
  cases hread : read file with
  | error e => simp [fileTags_error hread]
  | ok text => simp [fileTags_ok hread]

theorem nodup_fileTags (root : PathBuf) (read : PathBuf → Except IoError Text) (file : PathBuf) :
    (fileTags root read file).Nodup := by
  cases hread : read file with
  | error e =>
    rw [fileTags_error hread]
    exact List.nodup_nil
  | ok text =>
    rw [fileTags_ok hread]
    refine List.pairwise_map.2 ((chunk_ranges text _).imp fun hne heq => hne ?_)
    exact (srcTag_inj heq).2

/-- The tags of all collected files are different. -/
theorem nodup_tags (hos : os.Lawful) (hroot : os.isFile root = false) {fuel : Nat}
    {paths : List PathBuf} (h : collectFiles os opts fuel root = some paths)
    (read : PathBuf → Except IoError Text) : (paths.flatMap (fileTags root read)).Nodup := by
  rw [List.nodup_flatMap]
  refine ⟨fun file _ => nodup_fileTags root read file, ?_⟩
  refine (collectFiles_strict hos hroot h).imp_of_mem fun {file file'} hfile hfile' hlt => ?_
  obtain ⟨names, hne, hnames, rfl⟩ := ((mem_collectFiles hos hroot h).1 hfile).1.joins hos
  obtain ⟨names', hne', hnames', rfl⟩ := ((mem_collectFiles hos hroot h).1 hfile').1.joins hos
  intro tag htag htag'
  obtain ⟨text, -, c, -, rfl⟩ := mem_fileTags.1 htag
  obtain ⟨text', -, d, -, heq⟩ := mem_fileTags.1 htag'
  have hsame := relpath_inj hne' hne hnames' hnames (srcTag_inj heq).1
  rw [hsame] at hlt
  exact lt_irrefl _ hlt

section Tags

variable {M W F Err : Type} {E : Embed M F} {T : TenantWrite W F Err}
  {read : PathBuf → Except IoError Text}

/-- The tags of the inserts made so far. -/
def tagsOf (p : Pipeline M (W × List (Call F))) : List (List String) :=
  (insertions p.writer.2).map InsertCall.tags

/-- The loop over the chunks of a file inserts under the tags of the first ones. -/
theorem ingestChunks_tags {rel : String} {p q : Pipeline M (W × List (Call F))} {cs : List Chunk}
    {r : Except (IngestError Err) Unit}
    (h : ingestChunks E (recorded T) opts rel p cs = (q, r)) :
    ∃ tags, tags <+: cs.map (srcTag rel) ∧
      tagsOf q = tagsOf p ++ tags.map (fun tag => opts.tags ++ [tag]) ∧
      (r = .ok () → tags = cs.map (srcTag rel)) := by
  induction cs generalizing p with
  | nil =>
    simp only [ingestChunks, Prod.mk.injEq] at h
    obtain ⟨rfl, -⟩ := h
    exact ⟨[], List.nil_prefix, by simp, fun _ => rfl⟩
  | cons c cs ih =>
    rcases ingestChunks_cons E (recorded T) opts rel h with ⟨e, hc, rfl⟩ | ⟨p₁, hc, hrest⟩
    · rcases ingestChunk_error hc with hnone | ⟨m, v, -, hcall⟩
      · refine ⟨[], List.nil_prefix, ?_, fun hr => by cases hr⟩
        rw [tagsOf, hnone]
        simp [tagsOf]
      · refine ⟨[srcTag rel c], ?_, ?_, fun hr => by cases hr⟩
        · rw [List.map_cons, List.singleton_prefix_cons_iff]
        · rw [tagsOf, hcall, insertions_append, List.map_append]
          rfl
    · obtain ⟨m, v, w, -, -, rfl⟩ := ingestChunk_ok hc
      obtain ⟨tags, hfirst, htags, hdone⟩ := ih hrest
      refine ⟨srcTag rel c :: tags, ?_, ?_, fun hr => ?_⟩
      · rw [List.map_cons, List.prefix_cons_inj]
        exact hfirst
      · rw [htags, tagsOf, insertions_append, List.map_append, List.append_assoc]
        rfl
      · rw [hdone hr, List.map_cons]

/-- The loop over the files inserts under the tags of their first chunks. -/
theorem ingestFiles_tags {p q : Pipeline M (W × List (Call F))} {files : List PathBuf}
    {seen : List IngestStats} {r : Except (IngestError Err) Unit}
    (h : ingestFiles E (recorded T) opts root read p files = (q, seen, r)) :
    ∃ tags, tags <+: files.flatMap (fileTags root read) ∧
      tagsOf q = tagsOf p ++ tags.map (fun tag => opts.tags ++ [tag]) := by
  induction files generalizing p seen with
  | nil =>
    simp only [ingestFiles, Prod.mk.injEq] at h
    obtain ⟨rfl, -⟩ := h
    exact ⟨[], List.nil_prefix, by simp⟩
  | cons file files ih =>
    have hfile : ∀ {p₁ : Pipeline M (W × List (Call F))} {r₁ : Except (IngestError Err) Unit},
        ingestFile E (recorded T) opts root file (read file) p = (p₁, r₁) →
        ∃ tags, tags <+: fileTags root read file ∧
          tagsOf p₁ = tagsOf p ++ tags.map (fun tag => opts.tags ++ [tag]) ∧
          (r₁ = .ok () → tags = fileTags root read file) := by
      intro p₁ r₁ hrun
      cases hread : read file with
      | error e =>
        rw [hread, ingestFile, Prod.mk.injEq] at hrun
        obtain ⟨rfl, rfl⟩ := hrun
        rw [fileTags_error hread]
        exact ⟨[], List.nil_prefix, by simp, fun hr => by cases hr⟩
      | ok text =>
        rw [hread] at hrun
        rw [fileTags_ok hread]
        exact ingestChunks_tags hrun
    rcases ingestFiles_cons E (recorded T) opts root read h with ⟨e, hstop, rfl⟩ |
      ⟨p₁, seen₁, hgo, hrest⟩
    · obtain ⟨tags, hfirst, htags, -⟩ := hfile hstop
      refine ⟨tags, ?_, htags⟩
      rw [List.flatMap_cons]
      exact hfirst.trans (List.prefix_append _ _)
    · obtain ⟨tags, -, htags, hdone⟩ := hfile hgo
      obtain ⟨tags', hfirst, htags'⟩ := ih hrest
      have hall := hdone rfl
      subst hall
      refine ⟨fileTags root read file ++ tags', ?_, ?_⟩
      · rw [List.flatMap_cons, List.prefix_append_right_inj]
        exact hfirst
      · rw [htags', List.map_append, ← List.append_assoc, ← htags]
        rfl

/-- A run inserts under the tags of the first chunks of the collected files. -/
theorem ingestTree_tags {fuel : Nat} {embedder : M} {writer : W}
    {run : TreeRun M (W × List (Call F)) Err}
    (h : ingestTree E (recorded T) opts root read os fuel embedder (writer, []) = some run) :
    (insertions run.writer.2 = []) ∨ ∃ paths tags, collectFiles os opts fuel root = some paths ∧
      tags <+: paths.flatMap (fileTags root read) ∧
      (insertions run.writer.2).map InsertCall.tags = tags.map fun tag => opts.tags ++ [tag] := by
  unfold ingestTree at h
  split at h
  · rw [← Option.some.inj h]
    exact Or.inl rfl
  · obtain ⟨paths, hpaths, rfl⟩ := Option.map_eq_some_iff.1 h
    refine Or.inr ⟨paths, ?_⟩
    rcases hloop : ingestFiles E (recorded T) opts root read
      ⟨embedder, (writer, []), .startingAt opts.startId⟩ paths with ⟨q, seen, r⟩
    obtain ⟨tags, hfirst, htags⟩ := ingestFiles_tags hloop
    refine ⟨tags, hpaths, hfirst, ?_⟩
    -- the flush adds no insert
    have hwriter : insertions (ingestCollected E (recorded T) opts root read embedder (writer, [])
        paths).writer.2 = insertions q.writer.2 := by
      rw [ingestCollected, hloop]
      cases r with
      | error e => rfl
      | ok u =>
        dsimp only [recorded]
        cases (T.flush q.writer.1).2 with
        | error e => simp
        | ok u => simp
    rw [hwriter]
    exact htags

end Tags

/-- A provenance tag determines the path and the lines it was made of. The chunks of a text have
different lines, in either mode. And in every run over a directory, however it ends, no two inserts
carry the same provenance tag. -/
theorem srcTag_unique (opts : IngestOptions) (hos : os.Lawful) (hroot : os.isFile root = false) :
    (∀ rel c, decodeTag (srcTag rel c) = some (rel, c.lineLo, c.lineHi)) ∧
      (∀ text mode, (chunk text mode).Pairwise
        fun c d => (c.lineLo, c.lineHi) ≠ (d.lineLo, d.lineHi)) ∧
      ∀ {M W F Err : Type} (E : Embed M F) (T : TenantWrite W F Err)
        (read : PathBuf → Except IoError Text) (fuel : Nat) (embedder : M) (writer : W)
        (run : TreeRun M (W × List (Call F)) Err),
        ingestTree E (recorded T) opts root read os fuel embedder (writer, []) = some run →
        ∃ tags : List String, (insertions run.writer.2).map InsertCall.tags =
            tags.map (fun tag => opts.tags ++ [tag]) ∧ tags.Nodup ∧
          ∀ tag ∈ tags, ∃ file text c, read file = .ok text ∧ c ∈ chunksOf file text ∧
            tag = srcTag (relpath root file) c := by
  refine ⟨decodeTag_srcTag, chunk_ranges, ?_⟩
  intro M W F Err E T read fuel embedder writer run hrun
  rcases ingestTree_tags hrun with hnone | ⟨paths, tags, hpaths, hfirst, htags⟩
  · exact ⟨[], by rw [hnone]; rfl, List.nodup_nil, by simp⟩
  · refine ⟨tags, htags, (nodup_tags hos hroot hpaths read).sublist hfirst.sublist, ?_⟩
    intro tag htag
    obtain ⟨file, -, hfile⟩ := List.mem_flatMap.1 (hfirst.subset htag)
    obtain ⟨text, htext, c, hc, rfl⟩ := mem_fileTags.1 hfile
    exact ⟨file, text, c, htext, hc, rfl⟩

section Notes

open Reference

/-- The note `a.md` as the root: it is collected, and its records are tagged with an empty path. -/
theorem not_namesFile_single :
    ∃ run, ingestTree scripted (recorded vaultWriter) markdown (notes.join "a.md") readNotes
        notesOs 1 [] (vault, []) = some run ∧
      collectFiles notesOs markdown 1 (notes.join "a.md") = some [notes.join "a.md"] ∧
      (insertions run.writer.2).map InsertCall.tags = [["src::1-1"], ["src::3-3"]] ∧
      ¬NamesFile notesOs (notes.join "a.md") (notes.join "a.md") := by
  have hpaths : collectFiles notesOs markdown 1 (notes.join "a.md") = some [notes.join "a.md"] := by
    decide +kernel
  refine ⟨_, rfl, hpaths, by decide +kernel, by decide +kernel⟩

theorem srcTag_unique_notes :
    ∃ run, ingestTree scripted (recorded vaultWriter) markdown notes readNotes notesOs 2 []
        (vault, []) = some run ∧
      ∃ tags : List String, (insertions run.writer.2).map InsertCall.tags =
          tags.map (fun tag => markdown.tags ++ [tag]) ∧ tags.Nodup := by
  obtain ⟨tags, htags, hnodup, -⟩ := (srcTag_unique markdown lawful_notes
    (by decide : notesOs.isFile notes = false)).2.2 scripted vaultWriter readNotes 2 [] vault _ rfl
  exact ⟨_, rfl, tags, htags, hnodup⟩

theorem namesFile_iff_notes :
    ∃ paths, collectFiles notesOs markdown 2 notes = some paths ∧ notes.join "a.md" ∈ paths ∧
      (NamesFile notesOs notes (notes.join "a.md") ↔ notesOs.isFile notes = false) := by
  have hpaths : collectFiles notesOs markdown 2 notes =
      some [notes.join "a.md", notes.join "b.md"] := by decide +kernel
  exact ⟨_, hpaths, by simp, namesFile_iff lawful_notes hpaths (by simp)⟩

end Notes

end SkegRigging.Ingest
