import SkegRigging.Ingest.Paths

/-!
# Which files are collected

`walk` prunes by the spelling of a directory and `accepts` filters by the spelling of a file. Since
the first begins the second, pruning drops nothing that would be accepted, and what is collected are
the accepted regular files below the root, however deep (`mem_walk`). They are sorted afterwards, so
the order in which the directories are enumerated leaves no trace (`collectFiles_exact`).
-/

set_option autoImplicit false

namespace SkegRigging.Ingest

/-- What `read_dir`, `is_dir` and `is_file` promise. -/
structure Os.Lawful (os : Os) : Prop where
  names : ∀ dir names, os.readDir dir = some names → ∀ name, some name ∈ names → ProperName name
  nodup : ∀ dir names, os.readDir dir = some names → (names.filterMap fun name => name).Nodup
  kinds : ∀ path, os.isDir path = true → os.isFile path = false

/-- The paths below a directory, at any depth, that are reached through readable directories. -/
inductive Below (os : Os) : PathBuf → PathBuf → Prop
  | entry {dir path : PathBuf} (h : path ∈ os.entries dir) : Below os dir path
  | under {dir sub path : PathBuf} (h : sub ∈ os.entries dir) (hdir : os.isDir sub = true)
      (hpath : Below os sub path) : Below os dir path

variable {os : Os} {opts : IngestOptions} {dir path : PathBuf}

theorem Os.mem_entries : path ∈ os.entries dir ↔
    ∃ names name, os.readDir dir = some names ∧ some name ∈ names ∧ path = dir.join name := by
  unfold Os.entries
  cases hread : os.readDir dir with
  | none => simp
  | some names =>
    rw [List.mem_map]
    constructor
    · rintro ⟨name, hname, rfl⟩
      obtain ⟨entry, hentry, rfl⟩ := List.mem_filterMap.1 hname
      exact ⟨names, name, rfl, hentry, rfl⟩
    · rintro ⟨names', name, hnames, hname, rfl⟩
      rw [Option.some.inj hnames]
      exact ⟨name, List.mem_filterMap.2 ⟨some name, hname, rfl⟩, rfl⟩

theorem Os.Lawful.entry (h : os.Lawful) (hpath : path ∈ os.entries dir) :
    ∃ name, ProperName name ∧ path = dir.join name := by
  obtain ⟨names, name, hread, hname, rfl⟩ := Os.mem_entries.1 hpath
  exact ⟨name, h.names dir names hread name hname, rfl⟩

/-- What is below a directory is that directory joined with names. -/
theorem Below.joins (h : Below os dir path) (hos : os.Lawful) :
    ∃ names, names ≠ [] ∧ (∀ name ∈ names, ProperName name) ∧ path = dir.joins names := by
  induction h with
  | entry h =>
    obtain ⟨name, hname, rfl⟩ := hos.entry h
    refine ⟨[name], List.cons_ne_nil _ _, ?_, PathBuf.join_eq_joins _ _⟩
    simpa using hname
  | under h _ _ ih =>
    obtain ⟨name, hname, rfl⟩ := hos.entry h
    obtain ⟨names, -, hnames, rfl⟩ := ih
    refine ⟨name :: names, List.cons_ne_nil _ _, ?_, (PathBuf.joins_cons _ _ _).symm⟩
    rw [List.forall_mem_cons]
    exact ⟨hname, hnames⟩

/-! ## The walk -/

theorem map_of_mapM {α β : Type} {f : α → Option β} {l : List α} {ys : List β}
    (h : l.mapM f = some ys) : l.map f = ys.map some := by
  induction l generalizing ys with
  | nil =>
    rw [List.mapM_nil] at h
    rw [← Option.some.inj h]
    rfl
  | cons a l ih =>
    rw [List.mapM_cons] at h
    obtain ⟨b, hb, h⟩ := Option.bind_eq_some_iff.1 h
    obtain ⟨bs, hbs, h⟩ := Option.bind_eq_some_iff.1 h
    rw [← Option.some.inj h, List.map_cons, List.map_cons, hb, ih hbs]

/-- The loop of `walk` appends what each entry adds. -/
theorem walk_succ {fuel : Nat} {l : List PathBuf} (h : walk os opts (fuel + 1) dir = some l) :
    ∃ parts : List (List PathBuf), (os.entries dir).map (visit os opts (walk os opts fuel)) =
      parts.map some ∧ l = parts.flatten := by
  rw [walk] at h
  obtain ⟨parts, hparts, rfl⟩ := Option.map_eq_some_iff.1 h
  exact ⟨parts, map_of_mapM hparts, rfl⟩

theorem mem_walk_succ {fuel : Nat} {l : List PathBuf} (h : walk os opts (fuel + 1) dir = some l) :
    path ∈ l ↔ ∃ entry ∈ os.entries dir, ∃ part,
      visit os opts (walk os opts fuel) entry = some part ∧ path ∈ part := by
  obtain ⟨parts, hparts, rfl⟩ := walk_succ h
  have hmem : ∀ part, part ∈ parts ↔
      ∃ entry ∈ os.entries dir, visit os opts (walk os opts fuel) entry = some part := by
    intro part
    rw [← List.mem_map, hparts, List.mem_map_of_injective (Option.some_injective _)]
  rw [List.mem_flatten]
  constructor
  · rintro ⟨part, hpart, hpath⟩
    obtain ⟨entry, hentry, hvisit⟩ := (hmem part).1 hpart
    exact ⟨entry, hentry, part, hvisit, hpath⟩
  · rintro ⟨entry, hentry, part, hvisit, hpath⟩
    exact ⟨part, (hmem part).2 ⟨entry, hentry, hvisit⟩, hpath⟩

/-- A walk that ends visits every entry to its end. -/
theorem visit_of_walk_succ {fuel : Nat} {l : List PathBuf}
    (h : walk os opts (fuel + 1) dir = some l) (hentry : path ∈ os.entries dir) :
    ∃ part, visit os opts (walk os opts fuel) path = some part := by
  obtain ⟨parts, hparts, -⟩ := walk_succ h
  have hmem := List.mem_map_of_mem (f := visit os opts (walk os opts fuel)) hentry
  rw [hparts, List.mem_map] at hmem
  obtain ⟨part, -, hpart⟩ := hmem
  exact ⟨part, hpart.symm⟩

theorem visit_dir {search : PathBuf → Option (List PathBuf)}
    (hexcluded : excluded opts path = false) (hdir : os.isDir path = true) :
    visit os opts search path = search path := by
  rw [visit, hexcluded, hdir]
  rfl

/-- What one entry adds: nothing when it is excluded, else the files below a directory, else itself
when it is an accepted file. -/
theorem mem_visit {fuel : Nat} {part : List PathBuf} {entry : PathBuf}
    (h : visit os opts (walk os opts fuel) entry = some part) :
    path ∈ part ↔ excluded opts entry = false ∧
      ((os.isDir entry = true ∧ ∃ l, walk os opts fuel entry = some l ∧ path ∈ l) ∨
        (os.isDir entry = false ∧ os.isFile entry = true ∧ accepts entry opts = true ∧
          path = entry)) := by
  rcases visit_cases os opts (walk os opts fuel) entry with ⟨hexcluded, hskip⟩ |
    ⟨hexcluded, hdir, hdescend⟩ | ⟨hexcluded, hdir, hfile⟩
  · rw [hskip, Option.some.injEq] at h
    simp [← h, hexcluded]
  · rw [hdescend] at h
    simp [hexcluded, hdir, h]
  · rw [hfile, Option.some.injEq] at h
    rw [← h]
    simp only [hexcluded, hdir, Bool.false_eq_true, false_and, false_or, true_and]
    cases os.isFile entry <;> cases accepts entry opts <;> simp

/-- Every path that `walk` lists is an accepted regular file below the directory. -/
theorem of_mem_walk {fuel : Nat} {l : List PathBuf} (h : walk os opts fuel dir = some l)
    (hpath : path ∈ l) :
    Below os dir path ∧ os.isFile path = true ∧ accepts path opts = true := by
  induction fuel generalizing dir l with
  | zero => simp [walk] at h
  | succ fuel ih =>
    obtain ⟨entry, hentry, part, hvisit, hmem⟩ := (mem_walk_succ h).1 hpath
    obtain ⟨-, ⟨hdir, l', hl', hpath'⟩ | ⟨-, hfile, haccepts, rfl⟩⟩ := (mem_visit hvisit).1 hmem
    · obtain ⟨hbelow, hfile, haccepts⟩ := ih hl' hpath'
      exact ⟨Below.under hentry hdir hbelow, hfile, haccepts⟩
    · exact ⟨Below.entry hentry, hfile, haccepts⟩

/-- Every accepted regular file below the directory is listed: no directory on the way to it is
pruned. -/
theorem mem_walk_of {fuel : Nat} {l : List PathBuf} (hos : os.Lawful)
    (h : walk os opts fuel dir = some l) (hbelow : Below os dir path)
    (hfile : os.isFile path = true) (haccepts : accepts path opts = true) : path ∈ l := by
  induction hbelow generalizing fuel l with
  | entry hentry =>
    cases fuel with
    | zero => simp [walk] at h
    | succ fuel =>
      obtain ⟨part, hvisit⟩ := visit_of_walk_succ h hentry
      refine (mem_walk_succ h).2 ⟨_, hentry, part, hvisit, (mem_visit hvisit).2 ?_⟩
      refine ⟨excluded_of_accepts haccepts, Or.inr ⟨?_, hfile, haccepts, rfl⟩⟩
      rw [← Bool.not_eq_true]
      intro hdir
      rw [hos.kinds _ hdir] at hfile
      exact Bool.false_ne_true hfile
  | @under dir sub path hentry hdir hpath ih =>
    cases fuel with
    | zero => simp [walk] at h
    | succ fuel =>
      have hexcluded : excluded opts sub = false := by
        obtain ⟨names, -, -, rfl⟩ := hpath.joins hos
        apply not_excluded_of_joins
        exact excluded_of_accepts haccepts
      obtain ⟨part, hvisit⟩ := visit_of_walk_succ h hentry
      have hwalk := hvisit
      rw [visit_dir hexcluded hdir] at hwalk
      exact (mem_walk_succ h).2 ⟨sub, hentry, part, hvisit, ih hwalk hfile haccepts⟩

theorem mem_walk {fuel : Nat} {l : List PathBuf} (hos : os.Lawful)
    (h : walk os opts fuel dir = some l) :
    path ∈ l ↔ Below os dir path ∧ os.isFile path = true ∧ accepts path opts = true :=
  ⟨of_mem_walk h, fun hpath => mem_walk_of hos h hpath.1 hpath.2.1 hpath.2.2⟩

/-! ## No file twice -/

theorem Os.Lawful.nodup_entries (h : os.Lawful) (dir : PathBuf) : (os.entries dir).Nodup := by
  unfold Os.entries
  cases hread : os.readDir dir with
  | none => exact List.nodup_nil
  | some names =>
    refine (h.nodup dir names hread).map fun name name' heq => ?_
    rw [PathBuf.join_eq_joins, PathBuf.join_eq_joins, PathBuf.joins_inj] at heq
    exact (List.cons.inj heq).1

theorem visit_joins {fuel : Nat} {part : List PathBuf} {entry : PathBuf} (hos : os.Lawful)
    (h : visit os opts (walk os opts fuel) entry = some part) (hpath : path ∈ part) :
    ∃ names, path = entry.joins names := by
  obtain ⟨-, ⟨-, l, hl, hmem⟩ | ⟨-, -, -, rfl⟩⟩ := (mem_visit h).1 hpath
  · obtain ⟨names, -, -, hnames⟩ := (of_mem_walk hl hmem).1.joins hos
    exact ⟨names, hnames⟩
  · exact ⟨[], (PathBuf.joins_nil _).symm⟩

/-- Two entries of a directory lead to different files. -/
theorem visit_disjoint {fuel : Nat} {part part' : List PathBuf} {entry entry' : PathBuf}
    (hos : os.Lawful) (hentry : entry ∈ os.entries dir) (hentry' : entry' ∈ os.entries dir)
    (hne : entry ≠ entry') (h : visit os opts (walk os opts fuel) entry = some part)
    (h' : visit os opts (walk os opts fuel) entry' = some part') : part.Disjoint part' := by
  intro path hpath hpath'
  obtain ⟨name, -, rfl⟩ := hos.entry hentry
  obtain ⟨name', -, rfl⟩ := hos.entry hentry'
  obtain ⟨names, rfl⟩ := visit_joins hos h hpath
  obtain ⟨names', heq⟩ := visit_joins hos h' hpath'
  -- the names right below the directory differ
  rw [← PathBuf.joins_cons, ← PathBuf.joins_cons, PathBuf.joins_inj, List.cons.injEq] at heq
  apply hne
  rw [heq.1]

theorem nodup_visit {search : PathBuf → Option (List PathBuf)} {entry : PathBuf}
    {part : List PathBuf} (h : visit os opts search entry = some part)
    (hsearch : ∀ l, search entry = some l → l.Nodup) : part.Nodup := by
  rcases visit_cases os opts search entry with ⟨-, hskip⟩ | ⟨-, -, hdescend⟩ | ⟨-, -, hfile⟩
  · rw [hskip, Option.some.injEq] at h
    rw [← h]
    exact List.nodup_nil
  · rw [hdescend] at h
    exact hsearch part h
  · rw [hfile, Option.some.injEq] at h
    rw [← h]
    split
    · exact List.nodup_singleton entry
    · exact List.nodup_nil

theorem nodup_walk {fuel : Nat} {l : List PathBuf} (hos : os.Lawful)
    (h : walk os opts fuel dir = some l) : l.Nodup := by
  induction fuel generalizing dir l with
  | zero => simp [walk] at h
  | succ fuel ih =>
    obtain ⟨parts, hparts, rfl⟩ := walk_succ h
    rw [List.nodup_flatten]
    constructor
    · intro part hpart
      have hmem := List.mem_map_of_mem (f := some) hpart
      rw [← hparts, List.mem_map] at hmem
      obtain ⟨entry, -, hvisit⟩ := hmem
      exact nodup_visit hvisit fun l hl => ih hl
    · -- the parts of different entries, as the entries are listed once
      have hentries : (os.entries dir).Pairwise fun entry entry' =>
          ∀ part part', visit os opts (walk os opts fuel) entry = some part →
            visit os opts (walk os opts fuel) entry' = some part' → part.Disjoint part' :=
        (hos.nodup_entries dir).imp_of_mem fun hentry hentry' hne part part' hpart hpart' =>
          visit_disjoint hos hentry hentry' hne hpart hpart'
      have hsome : ((os.entries dir).map (visit os opts (walk os opts fuel))).Pairwise
          fun u v => ∀ part part', u = some part → v = some part' → part.Disjoint part' :=
        List.pairwise_map.2 hentries
      rw [hparts, List.pairwise_map] at hsome
      exact hsome.imp fun hdisjoint => hdisjoint _ _ rfl rfl

/-! ## The sorted list -/

theorem mem_sortPaths {paths : List PathBuf} : path ∈ sortPaths paths ↔ path ∈ paths :=
  List.mem_insertionSort _

theorem sortPaths_ordered (paths : List PathBuf) :
    (sortPaths paths).Pairwise fun a b => a.components ≤ b.components := by
  have htotal : Std.Total fun a b : PathBuf => a.components ≤ b.components :=
    ⟨fun a b => le_total a.components b.components⟩
  have htrans : IsTrans PathBuf fun a b => a.components ≤ b.components :=
    ⟨fun a b c => le_trans⟩
  exact List.pairwise_insertionSort _ paths

/-- Files below one root, each listed once, are sorted in strictly increasing order. -/
theorem sortPaths_strict (root : PathBuf) {paths : List PathBuf} (hnodup : paths.Nodup)
    (hbelow : ∀ path ∈ paths, ∃ names, path = root.joins names) :
    (sortPaths paths).Pairwise fun a b => a.components < b.components := by
  have hsorted : (sortPaths paths).Nodup := (List.perm_insertionSort _ paths).nodup_iff.2 hnodup
  refine ((sortPaths_ordered paths).and hsorted).imp_of_mem ?_
  rintro a b ha hb ⟨hle, hne⟩
  obtain ⟨names, rfl⟩ := hbelow a (mem_sortPaths.1 ha)
  obtain ⟨names', rfl⟩ := hbelow b (mem_sortPaths.1 hb)
  apply lt_of_le_of_ne hle
  intro heq
  apply hne
  rw [PathBuf.joins_inj]
  exact List.append_cancel_left heq

/-- A strictly increasing list is determined by what it holds. -/
theorem eq_of_strict {paths paths' : List PathBuf}
    (h : paths.Pairwise fun a b => a.components < b.components)
    (h' : paths'.Pairwise fun a b => a.components < b.components)
    (hmem : ∀ path, path ∈ paths ↔ path ∈ paths') : paths = paths' := by
  have hirrefl : Std.Irrefl fun a b : PathBuf => a.components < b.components :=
    ⟨fun a => lt_irrefl a.components⟩
  have hantisymm : Std.Antisymm fun a b : PathBuf => a.components < b.components :=
    ⟨fun a b hab hba => absurd hab (lt_asymm hba)⟩
  exact h.eq_of_mem_iff h' hmem

section Collect

variable {root : PathBuf} {paths : List PathBuf} {fuel : Nat}

theorem collectFiles_dir (hroot : os.isFile root = false)
    (h : collectFiles os opts fuel root = some paths) :
    ∃ l, walk os opts fuel root = some l ∧ paths = sortPaths l := by
  rw [collectFiles, hroot] at h
  obtain ⟨l, hl, rfl⟩ := Option.map_eq_some_iff.1 h
  exact ⟨l, hl, rfl⟩

/-- A root that is a file is the only candidate. -/
theorem mem_collectFiles_file (hroot : os.isFile root = true)
    (h : collectFiles os opts fuel root = some paths) :
    path ∈ paths ↔ path = root ∧ accepts root opts = true := by
  rw [collectFiles, if_pos hroot, Option.some.injEq] at h
  rw [← h]
  cases accepts root opts <;> simp

theorem mem_collectFiles (hos : os.Lawful) (hroot : os.isFile root = false)
    (h : collectFiles os opts fuel root = some paths) :
    path ∈ paths ↔ Below os root path ∧ os.isFile path = true ∧ accepts path opts = true := by
  obtain ⟨l, hl, rfl⟩ := collectFiles_dir hroot h
  rw [mem_sortPaths, mem_walk hos hl]

theorem collectFiles_strict (hos : os.Lawful) (hroot : os.isFile root = false)
    (h : collectFiles os opts fuel root = some paths) :
    paths.Pairwise fun a b => a.components < b.components := by
  obtain ⟨l, hl, rfl⟩ := collectFiles_dir hroot h
  apply sortPaths_strict root (nodup_walk hos hl)
  intro path hpath
  obtain ⟨names, -, -, hnames⟩ := (of_mem_walk hl hpath).1.joins hos
  exact ⟨names, hnames⟩

end Collect

/-! ## The order of enumeration -/

/-- The same tree, with the entries of each directory in any order. -/
structure Os.SameTree (os os' : Os) : Prop where
  isFile : os'.isFile = os.isFile
  isDir : os'.isDir = os.isDir
  readDir : ∀ dir, Option.Rel List.Perm (os.readDir dir) (os'.readDir dir)

section SameTree

variable {os' : Os}

theorem Os.SameTree.entries (h : os.SameTree os') (dir : PathBuf) :
    (os.entries dir).Perm (os'.entries dir) := by
  have hread := h.readDir dir
  unfold Os.entries
  generalize os.readDir dir = before at hread ⊢
  generalize os'.readDir dir = after at hread ⊢
  cases hread with
  | none => exact List.Perm.refl _
  | some hperm => exact (hperm.filterMap _).map _

theorem Os.SameTree.lawful (h : os.SameTree os') (hos : os.Lawful) : os'.Lawful := by
  have hread : ∀ dir names', os'.readDir dir = some names' →
      ∃ names, os.readDir dir = some names ∧ names.Perm names' := by
    intro dir names' hnames'
    have hrel := h.readDir dir
    rw [hnames'] at hrel
    generalize hbefore : os.readDir dir = before at hrel
    cases hrel with
    | some hperm => exact ⟨_, rfl, hperm⟩
  refine ⟨fun dir names' hnames' name hname => ?_, fun dir names' hnames' => ?_, fun path => ?_⟩
  · obtain ⟨names, hnames, hperm⟩ := hread dir names' hnames'
    exact hos.names dir names hnames name (hperm.mem_iff.2 hname)
  · obtain ⟨names, hnames, hperm⟩ := hread dir names' hnames'
    exact (hperm.filterMap _).nodup_iff.1 (hos.nodup dir names hnames)
  · rw [h.isDir, h.isFile]
    exact hos.kinds path

theorem Os.SameTree.below (h : os.SameTree os') : Below os' dir path ↔ Below os dir path := by
  constructor
  · intro hpath
    induction hpath with
    | entry hentry => exact Below.entry ((h.entries _).mem_iff.2 hentry)
    | under hentry hdir _ ih =>
      rw [h.isDir] at hdir
      exact Below.under ((h.entries _).mem_iff.2 hentry) hdir ih
  · intro hpath
    induction hpath with
    | entry hentry => exact Below.entry ((h.entries _).mem_iff.1 hentry)
    | under hentry hdir _ ih =>
      rw [← h.isDir] at hdir
      exact Below.under ((h.entries _).mem_iff.1 hentry) hdir ih

theorem Os.SameTree.depthLE (h : os.SameTree os') {n : Nat} (hdepth : DepthLE os n dir) :
    DepthLE os' n dir := by
  induction n generalizing dir with
  | zero =>
    intro path hpath
    rw [h.isDir]
    exact hdepth path ((h.entries dir).mem_iff.2 hpath)
  | succ n ih =>
    intro path hpath hdir
    rw [h.isDir] at hdir
    exact ih (hdepth path ((h.entries dir).mem_iff.2 hpath) hdir)

theorem Os.SameTree.collectFiles_eq (h : os.SameTree os') (hos : os.Lawful) {n fuel : Nat}
    {root : PathBuf} {paths : List PathBuf} (hroot : os.isFile root = false)
    (hdepth : DepthLE os n root) (hfuel : n < fuel)
    (hpaths : collectFiles os opts fuel root = some paths) :
    collectFiles os' opts fuel root = some paths := by
  have hroot' : os'.isFile root = false := by rw [h.isFile, hroot]
  have hsome : (collectFiles os' opts fuel root).isSome = true :=
    collectFiles_isSome (h.depthLE hdepth) hfuel
  obtain ⟨paths', hpaths'⟩ := Option.isSome_iff_exists.1 hsome
  rw [hpaths', Option.some.injEq]
  refine eq_of_strict (collectFiles_strict (h.lawful hos) hroot' hpaths')
    (collectFiles_strict hos hroot hpaths) fun path => ?_
  rw [mem_collectFiles (h.lawful hos) hroot' hpaths', mem_collectFiles hos hroot hpaths, h.below,
    h.isFile]

end SameTree

/-- For every directory tree, `collect_files` is the strictly increasing list of exactly the
accepted regular files below the root. It is the same list when the directories are enumerated in
another order, and then `ingest_tree` makes the same run, with the same id for each chunk. -/
theorem collectFiles_exact (hos : os.Lawful) {n fuel : Nat} {root : PathBuf}
    (opts : IngestOptions) (hroot : os.isFile root = false) (hdepth : DepthLE os n root)
    (hfuel : n < fuel) :
    ∃ paths, collectFiles os opts fuel root = some paths ∧
      (paths.Pairwise fun a b => a.components < b.components) ∧
      (∀ path, path ∈ paths ↔
        Below os root path ∧ os.isFile path = true ∧ accepts path opts = true) ∧
      ∀ os', os.SameTree os' → collectFiles os' opts fuel root = some paths ∧
        ∀ {M W F Err : Type} (E : Embed M F) (T : TenantWrite W F Err)
          (read : PathBuf → Except IoError Text) (embedder : M) (writer : W),
          ingestTree E T opts root read os' fuel embedder writer =
            ingestTree E T opts root read os fuel embedder writer := by
  have hsome : (collectFiles os opts fuel root).isSome = true := collectFiles_isSome hdepth hfuel
  obtain ⟨paths, hpaths⟩ := Option.isSome_iff_exists.1 hsome
  refine ⟨paths, hpaths, collectFiles_strict hos hroot hpaths,
    fun path => mem_collectFiles hos hroot hpaths, fun os' hsame => ?_⟩
  have hpaths' := hsame.collectFiles_eq hos hroot hdepth hfuel hpaths
  refine ⟨hpaths', fun E T read embedder writer => ?_⟩
  rw [ingestTree, ingestTree, hpaths', hpaths]

section Notes

open Reference

theorem lawful_notes : notesOs.Lawful := by
  have hread : ∀ dir names, notesOs.readDir dir = some names →
      names = [some "b.md", some "main.rs", none, some "old", some "a.md"] ∨ names = [] := by
    intro dir names h
    simp only [notesOs] at h
    split at h
    · exact Or.inl (Option.some.inj h).symm
    · split at h
      · exact Or.inr (Option.some.inj h).symm
      · simp at h
  refine ⟨fun dir names hnames name hname => ?_, fun dir names hnames => ?_, fun path hdir => ?_⟩
  · have hproper : ∀ name ∈ ["b.md", "main.rs", "old", "a.md"], ProperName name := by decide
    apply hproper
    rcases hread dir names hnames with rfl | rfl
    · simpa using hname
    · simp at hname
  · rcases hread dir names hnames with rfl | rfl
    · decide
    · decide
  · have hkinds : ∀ path ∈ [notes, notes.join "old"], notesOs.isFile path = false := by decide
    apply hkinds
    simpa [notesOs] using hdir

/-- The same directory, enumerated in the order of the names. -/
def sortedNotesOs : Os :=
  { notesOs with
    readDir := fun path =>
      if path = notes then some [some "a.md", some "b.md", some "main.rs", none, some "old"]
      else notesOs.readDir path }

theorem sameTree_notes : notesOs.SameTree sortedNotesOs := by
  refine ⟨rfl, rfl, fun dir => ?_⟩
  by_cases hdir : dir = notes
  · subst hdir
    exact Option.Rel.some (by decide)
  · have hsame : sortedNotesOs.readDir dir = notesOs.readDir dir := if_neg hdir
    rw [hsame]
    cases notesOs.readDir dir with
    | none => exact Option.Rel.none
    | some names => exact Option.Rel.some (List.Perm.refl _)

theorem collectFiles_exact_notes :
    ∃ paths, collectFiles notesOs markdown 2 notes = some paths ∧
      (∀ path, path ∈ paths ↔
        Below notesOs notes path ∧ notesOs.isFile path = true ∧ accepts path markdown = true) ∧
      collectFiles sortedNotesOs markdown 2 notes = some paths := by
  obtain ⟨paths, hpaths, -, hmem, horder⟩ :=
    collectFiles_exact lawful_notes markdown (by decide) depthLE_notes (by decide : 1 < 2)
  exact ⟨paths, hpaths, hmem, (horder sortedNotesOs sameTree_notes).1⟩

end Notes

end SkegRigging.Ingest
