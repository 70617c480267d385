import SkegRigging.Ingest.SrcTag

/-!
# Watching and walking the same files

The watcher reports absolute paths, while `walk` spells the paths below the root as the root is
spelled. Both entry points pass what they have to `accepts` and `relpath`. For a relative root the
watched path lies under no prefix that `strip_prefix` knows, so its records are tagged with the mere
file name, and an exclude may be found in the directories above the root. `sameRows_iff` says for
which files the two agree.
-/

set_option autoImplicit false

namespace SkegRigging.Ingest

variable {M W F Err : Type}

/-- What an insert writes, its id aside. -/
def InsertCall.row (call : InsertCall F) : List F × Bool × List String × Bytes :=
  (call.embedding, call.shareable, call.tags, call.payload)

/-- The rows that a pipeline has tried to insert. -/
def rowsOf (p : Pipeline M (W × List (Call F))) : List (List F × Bool × List String × Bytes) :=
  (insertions p.writer.2).map InsertCall.row

/-- The path under which the watcher reports a file. -/
def reported (cwd file : PathBuf) : PathBuf := cwd.joinPath file

section Rows

variable (E : Embed M F) (T : TenantWrite W F Err) (opts : IngestOptions) (root : PathBuf)
  (content : Except IoError Text) (embedder : M) (writer : W)

/-- The rows of a file that `ingest_tree` comes to. -/
def treeRows (file : PathBuf) : List (List F × Bool × List String × Bytes) :=
  rowsOf (ingestFile E (recorded T) opts root file content
    ⟨embedder, (writer, []), .startingAt opts.startId⟩).1

/-- The rows of a regular file that the watcher reports at `now`. -/
def watchRows (path : PathBuf) (now : Nat) : List (List F × Bool × List String × Bytes) :=
  (insertions ((Watch.start opts embedder (writer, [])).visit E (recorded T) root
    ⟨path, now, now, true, content⟩).writer.2).map InsertCall.row

/-- The first visit of a path ingests it when it is accepted. -/
theorem watchRows_eq (path : PathBuf) (now : Nat) :
    watchRows E T opts root content embedder writer path now =
      if accepts path opts then treeRows E T opts root content embedder writer path else [] := by
  cases haccepts : accepts path opts with
  | false =>
    have hskip : (Watch.start opts embedder (writer, ([] : List (Call F)))).attempts
        ⟨path, now, now, true, content⟩ = false := by
      simp [Watch.attempts, Visit.accepted, Watch.start, haccepts]
    rw [watchRows, Watch.visit_skipped hskip]
    rfl
  | true =>
    have hattempt : (Watch.start opts embedder (writer, ([] : List (Call F)))).attempts
        ⟨path, now, now, true, content⟩ = true := by
      simp [Watch.attempts, Visit.accepted, Watch.start, Watch.debounced, haccepts]
    rw [watchRows, Watch.visit_attempted hattempt, if_pos rfl, treeRows, rowsOf]
    -- the loop starts from the same options, and its flush adds no insert
    have hsame : (Watch.start opts embedder (writer, ([] : List (Call F)))).ingest E (recorded T)
        root ⟨path, now, now, true, content⟩ =
        ingestFile E (recorded T) opts root path content
          ⟨embedder, (writer, []), .startingAt opts.startId⟩ := rfl
    rw [hsame]
    rcases ingestFile E (recorded T) opts root path content
      ⟨embedder, (writer, []), .startingAt opts.startId⟩ with ⟨p, e | ⟨⟩⟩
    · rfl
    · dsimp only [recorded]
      rw [insertions_append, insertions_flush, List.append_nil]

/-- A file enters its rows through its relative path and its extension. -/
theorem treeRows_congr {file file' : PathBuf} (hrel : relpath root file = relpath root file')
    (hext : file.extension = file'.extension) :
    treeRows E T opts root content embedder writer file =
      treeRows E T opts root content embedder writer file' := by
  rw [treeRows, treeRows, ingestFile.eq_def, ingestFile.eq_def]
  cases content with
  | error e => rfl
  | ok text =>
    have hchunks : chunksOf file text = chunksOf file' text := by rw [chunksOf, chunksOf, hext]
    dsimp only
    rw [hrel, hchunks]

end Rows

/-- `watch_tree` and `ingest_tree` make the same of a file: both accept it or neither, and with any
embedder and writer they insert the same rows. -/
def SameRows (cwd : PathBuf) (opts : IngestOptions) (root file : PathBuf) : Prop :=
  accepts (reported cwd file) opts = accepts file opts ∧
    ∀ {M W F Err : Type} (E : Embed M F) (T : TenantWrite W F Err) (content : Except IoError Text)
      (embedder : M) (writer : W) (now : Nat),
      watchRows E T opts root content embedder writer (reported cwd file) now =
        treeRows E T opts root content embedder writer file

section Agree

variable {os : Os} {opts : IngestOptions} {cwd root file : PathBuf}

theorem sameRows_of (haccepts : accepts (reported cwd file) opts = true)
    (hfile : accepts file opts = true)
    (hrel : relpath root (reported cwd file) = relpath root file)
    (hext : (reported cwd file).extension = file.extension) : SameRows cwd opts root file := by
  refine ⟨by rw [haccepts, hfile], ?_⟩
  intro M W F Err E T content embedder writer now
  rw [watchRows_eq, if_pos haccepts]
  exact treeRows_congr E T opts root content embedder writer hrel hext

/-- An embedder and a writer that never fail. -/
def constant : Embed Unit Unit := ⟨fun _ => 0, fun _ _ => ((), .ok [])⟩

def accepting : TenantWrite Unit Unit Unit :=
  ⟨fun _ _ _ _ _ _ => ((), .ok ()), fun _ => ((), .ok ()), fun _ => 0⟩

theorem chunksOf_letter (file : PathBuf) : chunksOf file ['x'] = [⟨['x'], 1, 1⟩] := by
  rw [chunksOf]
  unfold ChunkMode.forExt
  split <;> decide

theorem treeRows_letter (file : PathBuf) :
    treeRows constant accepting opts root (.ok ['x']) () () file =
      [([], opts.shareable, opts.tags ++ [srcTag (relpath root file) ⟨['x'], 1, 1⟩],
        utf8 ['x'])] := by
  rw [treeRows, ingestFile, chunksOf_letter]
  rfl

/-- When the rows are the same for every content, so are the relative paths. -/
theorem SameRows.relpath_eq (h : SameRows cwd opts root file) (hfile : accepts file opts = true) :
    relpath root (reported cwd file) = relpath root file := by
  have hrows := h.2 constant accepting (.ok ['x']) () () 0
  rw [watchRows_eq, h.1, if_pos hfile, treeRows_letter, treeRows_letter] at hrows
  simp only [List.cons.injEq, Prod.mk.injEq, List.append_cancel_left_eq] at hrows
  exact (srcTag_inj hrows.1.2.2.1.1).1

/-! ## The relative path of a reported file -/

theorem reported_absolute (hfile : file.absolute = true) : reported cwd file = file := if_pos hfile

theorem reported_relative (hfile : file.absolute = false) :
    reported cwd file = cwd.joins file.components := by
  rw [reported, PathBuf.joinPath, hfile]
  rfl

/-- Below a relative root the relative path of a reported file is its mere name. -/
theorem relpath_reported (hcwd : cwd.absolute = true) (hroot : root.absolute = false)
    (hne : root.components ≠ []) (pre : List String) {name : String} (hname : ProperName name) :
    relpath root (reported cwd (root.joins (pre ++ [name]))) = name := by
  have hreported : reported cwd (root.joins (pre ++ [name])) =
      (cwd.joins (root.components ++ pre)).join name := by
    have hfile : (root.joins (pre ++ [name])).absolute = false := hroot
    rw [reported_relative hfile, ← PathBuf.joins_concat, List.append_assoc]
    rfl
  have hstrip : ((cwd.joins (root.components ++ pre)).join name).stripPrefix root = none :=
    PathBuf.stripPrefix_of_relative hcwd hroot hne
  rw [hreported, relpath, hstrip]
  dsimp only
  rw [PathBuf.fileName_join hname]
  rfl

theorem display_absolute {p : PathBuf} (hp : p.absolute = true) :
    ∃ rest, p.display.toList = '/' :: rest := by
  refine ⟨("/".intercalate p.components).toList, ?_⟩
  rw [PathBuf.display, if_pos hp, String.toList_append]
  rfl

/-- The empty path is a prefix of every path, so the reported path stays as it is. -/
theorem relpath_reported_empty (hcwd : cwd.absolute = true) (hroot : root.absolute = false)
    (hempty : root.components = []) (hfile : file.absolute = false) :
    relpath root (reported cwd file) = (reported cwd file).display := by
  have habsolute : (reported cwd file).absolute = true := by
    rw [reported_relative hfile]
    exact hcwd
  rw [relpath, PathBuf.stripPrefix, hroot, habsolute, if_neg Bool.false_ne_true,
    if_pos ⟨rfl, hempty⟩]

/-- An absolute path is not what `relpath` gives below a directory. -/
theorem display_ne_relative {p : PathBuf} (hp : p.absolute = true) {names : List String}
    (hne : names ≠ []) (hnames : ∀ name ∈ names, ProperName name) :
    p.display ≠ PathBuf.display ⟨false, names⟩ := by
  intro heq
  obtain ⟨rest, hrest⟩ := display_absolute hp
  have hsegments := PathBuf.segments_display hne fun name hname => (hnames name hname).noSlash
  rw [← heq, segments, hrest, List.splitOn_cons_eq_if_modifyHead, if_pos (by decide),
    List.map_cons] at hsegments
  -- what precedes the first slash is empty
  have hblank : "" ∈ names := by
    rw [← hsegments]
    exact List.mem_cons_self
  exact (hnames "" hblank).nonempty rfl

/-- A relative root that is itself the file: the walk tags it with the empty path, the watcher does
not. -/
theorem relpath_reported_root (hcwd : cwd.absolute = true) (hroot : root.absolute = false)
    (hname : root.components.getLast? ≠ some "") : relpath root (reported cwd root) ≠ "" := by
  have habsolute : (reported cwd root).absolute = true := by
    rw [reported_relative hroot]
    exact hcwd
  have hdisplay : (reported cwd root).display ≠ "" := by
    intro hempty
    obtain ⟨rest, hrest⟩ := display_absolute habsolute
    rw [hempty] at hrest
    simp at hrest
  by_cases hne : root.components = []
  · rw [relpath_reported_empty hcwd hroot hne hroot]
    exact hdisplay
  · rw [relpath, PathBuf.stripPrefix_of_relative habsolute hroot hne]
    dsimp only
    rw [PathBuf.fileName, reported_relative hroot]
    have hlast : (cwd.joins root.components).components.getLast? = root.components.getLast? :=
      List.getLast?_append_of_ne_nil _ hne
    rw [hlast]
    rw [reported_relative hroot] at hdisplay
    cases hcase : root.components.getLast? with
    | none => exact hdisplay
    | some name =>
      dsimp only
      split
      · exact hdisplay
      · rintro rfl
        exact hname hcase

theorem accepts_reported (hfile : accepts file opts = true)
    (hext : (reported cwd file).extension = file.extension) :
    accepts (reported cwd file) opts = !excluded opts (reported cwd file) := by
  rw [accepts_eq, Bool.and_eq_true] at hfile
  rw [accepts_eq, hext, hfile.2, Bool.and_true]

theorem extension_reported (hroot : root.absolute = false) (name : String) :
    (reported cwd (root.join name)).extension = (root.join name).extension := by
  have hfile : (root.join name).absolute = false := hroot
  apply PathBuf.extension_eq
  rw [reported_relative hfile, PathBuf.joins, PathBuf.join, ← List.append_assoc,
    List.getLast?_concat, List.getLast?_concat]

theorem sameRows_absolute (habsolute : file.absolute = true) (hfile : accepts file opts = true) :
    SameRows cwd opts root file := by
  have hsame : reported cwd file = file := reported_absolute habsolute
  apply sameRows_of _ hfile
  · rw [hsame]
  · rw [hsame]
  · rw [hsame, hfile]

/-- A file that `walk` finds below a relative root. -/
theorem sameRows_relative_iff (hcwd : cwd.absolute = true) (hroot : root.absolute = false)
    {names : List String} (hne : names ≠ []) (hnames : ∀ name ∈ names, ProperName name)
    (hfile : accepts (root.joins names) opts = true) :
    SameRows cwd opts root (root.joins names) ↔
      root.components ≠ [] ∧ (∃ name, root.joins names = root.join name) ∧
        excluded opts (reported cwd (root.joins names)) = false := by
  have hrelative : (root.joins names).absolute = false := hroot
  constructor
  · intro hsame
    have hrel := hsame.relpath_eq hfile
    rw [relpath_joins] at hrel
    by_cases hempty : root.components = []
    · rw [relpath_reported_empty hcwd hroot hempty hrelative] at hrel
      have habsolute : (reported cwd (root.joins names)).absolute = true := by
        rw [reported_relative hrelative]
        exact hcwd
      exact absurd hrel (display_ne_relative habsolute hne hnames)
    · refine ⟨hempty, ?_, excluded_of_accepts (hsame.1.trans hfile)⟩
      obtain ⟨pre, name, rfl⟩ := (List.eq_nil_or_concat' names).resolve_left hne
      have hname : ProperName name := hnames name (by simp)
      rw [relpath_reported hcwd hroot hempty pre hname] at hrel
      -- the mere name spells one name
      have hsegments := PathBuf.segments_display hne fun name hname => (hnames name hname).noSlash
      have hone : segments name = [name] := by
        rw [segments, List.splitOn_eq_singleton hname.noSlash, List.map_singleton,
          String.ofList_toList]
      rw [← hrel, hone] at hsegments
      exact ⟨name, by rw [← hsegments]; rfl⟩
  · rintro ⟨hempty, ⟨name, heq⟩, hexcluded⟩
    rw [PathBuf.join_eq_joins, PathBuf.joins_inj] at heq
    subst heq
    have hname : ProperName name := hnames name List.mem_cons_self
    apply sameRows_of _ hfile
    · rw [relpath_joins]
      have hrel := relpath_reported hcwd hroot hempty [] hname
      rw [List.nil_append] at hrel
      rw [hrel, PathBuf.display, if_neg Bool.false_ne_true, String.empty_append,
        String.intercalate_singleton]
    · exact extension_reported hroot name
    · rw [accepts_reported hfile (extension_reported hroot name), hexcluded]
      rfl

/-- For every collected file, `watch_tree` and `ingest_tree` write the same rows exactly when the
root is absolute, or the file lies right in a relative root and no exclude is found in its absolute
path. -/
theorem sameRows_iff (hos : os.Lawful) (hcwd : cwd.absolute = true)
    (hname : root.components.getLast? ≠ some "") {fuel : Nat} {paths : List PathBuf}
    (h : collectFiles os opts fuel root = some paths) (hfile : file ∈ paths) :
    SameRows cwd opts root file ↔
      root.absolute = true ∨
        (root.components ≠ [] ∧ (∃ name, file = root.join name) ∧
          excluded opts (reported cwd file) = false) := by
  cases hkind : os.isFile root with
  | true =>
    obtain ⟨rfl, haccepts⟩ := (mem_collectFiles_file hkind h).1 hfile
    cases habsolute : file.absolute with
    | true => exact iff_of_true (sameRows_absolute habsolute haccepts) (Or.inl rfl)
    | false =>
      apply iff_of_false
      · intro hsame
        have hrel := hsame.relpath_eq haccepts
        rw [relpath_self] at hrel
        exact relpath_reported_root hcwd habsolute hname hrel
      · rintro (hroot | ⟨-, ⟨name, heq⟩, -⟩)
        · exact Bool.false_ne_true hroot
        · -- a path is not its own entry
          have hlen := congrArg (fun p => p.components.length) heq
          simp [PathBuf.join] at hlen
  | false =>
    obtain ⟨hbelow, -, haccepts⟩ := (mem_collectFiles hos hkind h).1 hfile
    obtain ⟨names, hne, hnames, rfl⟩ := hbelow.joins hos
    cases habsolute : root.absolute with
    | true => exact iff_of_true (sameRows_absolute habsolute haccepts) (Or.inl rfl)
    | false =>
      rw [sameRows_relative_iff hcwd habsolute hne hnames haccepts]
      simp

end Agree

section Example

open Reference

/-- The directory `notes` of the current directory, with one note in a subdirectory. -/
def localNotes : PathBuf := ⟨false, ["notes"]⟩

def localOs : Os where
  isFile path := path = localNotes.joins ["old", "a.md"]
  isDir path := path = localNotes || path = localNotes.join "old"
  readDir path :=
    if path = localNotes then some [some "old"]
    else if path = localNotes.join "old" then some [some "a.md"]
    else none

/-- The walk tags the note with `old/a.md`, the watcher with `a.md`. -/
theorem not_sameRows_relative :
    collectFiles localOs markdown 2 localNotes = some [localNotes.joins ["old", "a.md"]] ∧
      treeRows scripted vaultWriter markdown localNotes (.ok "one".toList) [] vault
          (localNotes.joins ["old", "a.md"]) =
        [([3], false, ["src:old/a.md:1-1"], utf8 "one".toList)] ∧
      watchRows scripted vaultWriter markdown localNotes (.ok "one".toList) [] vault
          (reported ⟨true, ["home"]⟩ (localNotes.joins ["old", "a.md"])) 0 =
        [([3], false, ["src:a.md:1-1"], utf8 "one".toList)] ∧
      ¬SameRows ⟨true, ["home"]⟩ markdown localNotes (localNotes.joins ["old", "a.md"]) := by
  have htree : treeRows scripted vaultWriter markdown localNotes (.ok "one".toList) [] vault
      (localNotes.joins ["old", "a.md"]) =
        [([3], false, ["src:old/a.md:1-1"], utf8 "one".toList)] := by decide +kernel
  have hwatch : watchRows scripted vaultWriter markdown localNotes (.ok "one".toList) [] vault
      (reported ⟨true, ["home"]⟩ (localNotes.joins ["old", "a.md"])) 0 =
        [([3], false, ["src:a.md:1-1"], utf8 "one".toList)] := by decide +kernel
  refine ⟨by decide +kernel, htree, hwatch, fun hsame => ?_⟩
  have hrows := hsame.2 scripted vaultWriter (.ok "one".toList) [] vault 0
  rw [htree, hwatch] at hrows
  revert hrows
  decide

/-- The directory `notes` of the current directory, with one note right in it. -/
def flatOs : Os where
  isFile path := path = localNotes.join "a.md"
  isDir path := path = localNotes
  readDir path := if path = localNotes then some [some "a.md"] else none

theorem lawful_flat : flatOs.Lawful := by
  have hread : ∀ dir names, flatOs.readDir dir = some names → names = [some "a.md"] := by
    intro dir names h
    simp only [flatOs] at h
    split at h
    · exact (Option.some.inj h).symm
    · simp at h
  refine ⟨fun dir names hnames name hname => ?_, fun dir names hnames => ?_, fun path hdir => ?_⟩
  · rw [hread dir names hnames, List.mem_singleton, Option.some.injEq] at hname
    rw [hname]
    decide
  · rw [hread dir names hnames]
    decide
  · have hpath : path = localNotes := of_decide_eq_true hdir
    rw [hpath]
    decide

/-- An absolute root, and a relative one that has the file right in it. -/
theorem sameRows_iff_notes :
    (∃ paths, collectFiles notesOs markdown 2 notes = some paths ∧ notes.join "a.md" ∈ paths ∧
      SameRows ⟨true, ["home"]⟩ markdown notes (notes.join "a.md")) ∧
    ∃ paths, collectFiles flatOs markdown 1 localNotes = some paths ∧
      localNotes.join "a.md" ∈ paths ∧
      SameRows ⟨true, ["home"]⟩ markdown localNotes (localNotes.join "a.md") := by
  have hpaths : collectFiles notesOs markdown 2 notes =
      some [notes.join "a.md", notes.join "b.md"] := by decide +kernel
  have hflat : collectFiles flatOs markdown 1 localNotes = some [localNotes.join "a.md"] := by
    decide +kernel
  have hexcluded : excluded markdown (reported ⟨true, ["home"]⟩ (localNotes.join "a.md")) =
      false := by decide +kernel
  refine ⟨⟨_, hpaths, by simp, ?_⟩, _, hflat, by simp, ?_⟩
  · exact (sameRows_iff lawful_notes rfl (by decide) hpaths (by simp)).2 (Or.inl rfl)
  · exact (sameRows_iff lawful_flat rfl (by decide) hflat (by simp)).2
      (Or.inr ⟨by decide, ⟨_, rfl⟩, hexcluded⟩)

end Example

end SkegRigging.Ingest
