import Mathlib.Tactic.FinCases
import SkegRigging.Ingest.Collect
import SkegRigging.Library.Pumping

/-!
# Walking a directory graph

With symbolic links, which `is_dir` and `is_file` follow, the directories below a root form a graph.
`walk` keeps no record of the directories it has seen: it descends as long as a path leads to a
directory and contains no exclude. On a finite graph a descent that does not end goes round a loop
whose repetitions contain no exclude (`walk_none_iff`). Excludes are short, so they cannot tell the
rounds apart: this is the pumping argument of `loops_of_long`.

`walksOnce_iff` is the exact condition under which the walk ends and lists no file twice.
-/

set_option autoImplicit false

namespace SkegRigging.Ingest

open Pumping

/-! ## File systems with links -/

inductive Kind
  | dir
  | file
  | other
  deriving DecidableEq, Repr

/-- A file system over the inodes `N`. A name in a directory leads to an inode, through links if
there are any, or nowhere; so a directory can be reached from itself. -/
structure LinkedFs (N : Type) where
  kind : N → Kind
  /-- What `read_dir` lists, for a directory that can be read. -/
  names : N → Option (List String)
  child : N → String → Option N
  proper : ∀ n list, names n = some list → ∀ name ∈ list, ProperName name
  nodup : ∀ n list, names n = some list → list.Nodup
  readable : ∀ n list, names n = some list → kind n = .dir

namespace LinkedFs

variable {N : Type} (fs : LinkedFs N)

/-- The inode that a listed name leads to. -/
def step (n : N) (name : String) : Option N :=
  if name ∈ (fs.names n).getD [] then fs.child n name else none

/-- The inode that names lead to, one after the other. -/
def follow (n : N) : List String → Option N
  | [] => some n
  | name :: names => (fs.step n name).bind fun m => follow m names

/-- The inode of a path below `root`, which is the inode `top`. -/
def resolve (root : PathBuf) (top : N) (path : PathBuf) : Option N :=
  (path.stripPrefix root).bind fun rel => fs.follow top rel.components

/-- What the operating system answers about the paths below `root`. -/
def os (root : PathBuf) (top : N) : Os where
  isFile path := (fs.resolve root top path).any fun n => fs.kind n = .file
  isDir path := (fs.resolve root top path).any fun n => fs.kind n = .dir
  readDir path :=
    (fs.resolve root top path).bind fun n => (fs.names n).map fun list => list.map some

variable {fs} {n m : N} {name : String} {names names' : List String}

theorem step_eq_some : fs.step n name = some m ↔
    ∃ list, fs.names n = some list ∧ name ∈ list ∧ fs.child n name = some m := by
  rw [step]
  cases hlist : fs.names n with
  | none => simp
  | some list => simp

theorem follow_append (n : N) (names names' : List String) :
    fs.follow n (names ++ names') = (fs.follow n names).bind fun m => fs.follow m names' := by
  induction names generalizing n with
  | nil => rfl
  | cons name names ih =>
    rw [List.cons_append, follow, follow]
    cases fs.step n name with
    | none => rfl
    | some m => exact ih m

theorem follow_singleton (n : N) (name : String) : fs.follow n [name] = fs.step n name := by
  rw [follow]
  cases fs.step n name <;> rfl

/-- What can be followed further is a directory. -/
theorem kind_of_follow (h : fs.follow n names = some m) (hne : names ≠ []) : fs.kind n = .dir := by
  obtain ⟨name, rest, rfl⟩ := List.exists_cons_of_ne_nil hne
  obtain ⟨k, hstep, -⟩ := Option.bind_eq_some_iff.1 h
  obtain ⟨list, hlist, -, -⟩ := step_eq_some.1 hstep
  exact fs.readable n list hlist

theorem listed_of_follow (h : fs.follow n names = some m) (hname : name ∈ names) :
    ∃ k list, fs.names k = some list ∧ name ∈ list := by
  induction names generalizing n with
  | nil => simp at hname
  | cons first names ih =>
    obtain ⟨k, hstep, hrest⟩ := Option.bind_eq_some_iff.1 h
    rcases List.mem_cons.1 hname with rfl | hname
    · obtain ⟨list, hlist, hmem, -⟩ := step_eq_some.1 hstep
      exact ⟨n, list, hlist, hmem⟩
    · exact ih hrest hname

section Os

variable {root : PathBuf} {top : N} {opts : IngestOptions}

@[simp] theorem resolve_joins (root : PathBuf) (top : N) (names : List String) :
    fs.resolve root top (root.joins names) = fs.follow top names := by
  rw [resolve, PathBuf.stripPrefix_joins]
  rfl

theorem os_isFile (root path : PathBuf) (top : N) : (fs.os root top).isFile path =
    (fs.resolve root top path).any fun n => fs.kind n = .file := rfl

theorem os_isDir (root path : PathBuf) (top : N) : (fs.os root top).isDir path =
    (fs.resolve root top path).any fun n => fs.kind n = .dir := rfl

theorem os_readDir (root path : PathBuf) (top : N) : (fs.os root top).readDir path =
    (fs.resolve root top path).bind fun n => (fs.names n).map fun list => list.map some := rfl

theorem isDir_joins : (fs.os root top).isDir (root.joins names) = true ↔
    ∃ n, fs.follow top names = some n ∧ fs.kind n = .dir := by
  rw [os_isDir, resolve_joins, Option.any_eq_true]
  simp

theorem isFile_joins : (fs.os root top).isFile (root.joins names) = true ↔
    ∃ n, fs.follow top names = some n ∧ fs.kind n = .file := by
  rw [os_isFile, resolve_joins, Option.any_eq_true]
  simp

theorem readDir_eq_some {path : PathBuf} {list : List (Option String)} :
    (fs.os root top).readDir path = some list ↔ ∃ n listed, fs.resolve root top path = some n ∧
      fs.names n = some listed ∧ list = listed.map some := by
  rw [os_readDir, Option.bind_eq_some_iff]
  simp only [Option.map_eq_some_iff]
  constructor
  · rintro ⟨n, hn, listed, hlisted, rfl⟩
    exact ⟨n, listed, hn, hlisted, rfl⟩
  · rintro ⟨n, listed, hn, hlisted, rfl⟩
    exact ⟨n, hn, listed, hlisted, rfl⟩

theorem lawful (fs : LinkedFs N) (root : PathBuf) (top : N) : (fs.os root top).Lawful := by
  refine ⟨fun dir list hlist name hname => ?_, fun dir list hlist => ?_, fun path hdir => ?_⟩
  · obtain ⟨n, listed, -, hlisted, rfl⟩ := readDir_eq_some.1 hlist
    rw [List.mem_map_of_injective (Option.some_injective _)] at hname
    exact fs.proper n listed hlisted name hname
  · obtain ⟨n, listed, -, hlisted, rfl⟩ := readDir_eq_some.1 hlist
    rw [List.filterMap_map]
    have hid : listed.filterMap ((fun name : Option String => name) ∘ some) = listed :=
      List.filterMap_some
    rw [hid]
    exact fs.nodup n listed hlisted
  · rw [os_isDir, Option.any_eq_true] at hdir
    obtain ⟨n, hn, hkind⟩ := hdir
    rw [decide_eq_true_eq] at hkind
    rw [os_isFile, hn, Option.any_some, hkind]
    rfl

/-- The entries of a directory are the listed names below it. -/
theorem mem_entries {path : PathBuf} : path ∈ (fs.os root top).entries (root.joins names) ↔
    ∃ n list name, fs.follow top names = some n ∧ fs.names n = some list ∧ name ∈ list ∧
      path = root.joins (names ++ [name]) := by
  rw [Os.mem_entries]
  constructor
  · rintro ⟨list, name, hlist, hname, rfl⟩
    obtain ⟨n, listed, hn, hlisted, rfl⟩ := readDir_eq_some.1 hlist
    rw [resolve_joins] at hn
    rw [List.mem_map_of_injective (Option.some_injective _)] at hname
    exact ⟨n, listed, name, hn, hlisted, hname, (PathBuf.joins_concat _ _ _).symm⟩
  · rintro ⟨n, listed, name, hn, hlisted, hname, rfl⟩
    refine ⟨listed.map some, name, readDir_eq_some.2 ⟨n, listed, ?_, hlisted, rfl⟩, ?_, ?_⟩
    · rw [resolve_joins, hn]
    · exact List.mem_map_of_mem hname
    · exact PathBuf.joins_concat _ _ _

end Os

end LinkedFs

/-! ## Descents -/

/-- `walk` goes down from `dir` through the directories of these names, one below the other. -/
def Descends (os : Os) (opts : IngestOptions) : PathBuf → List String → Prop
  | _, [] => True
  | dir, name :: names =>
    dir.join name ∈ os.entries dir ∧ excluded opts (dir.join name) = false ∧
      os.isDir (dir.join name) = true ∧ Descends os opts (dir.join name) names

section Descents

variable {os : Os} {opts : IngestOptions} {dir path : PathBuf}

theorem mapM_eq_none_iff {α β : Type} {f : α → Option β} {l : List α} :
    l.mapM f = none ↔ ∃ a ∈ l, f a = none := by
  constructor
  · intro h
    by_contra hall
    have hsome : (l.mapM f).isSome = true := by
      apply mapM_isSome
      intro a ha
      rw [Option.isSome_iff_ne_none]
      exact fun hnone => hall ⟨a, ha, hnone⟩
    rw [h] at hsome
    exact Bool.false_ne_true hsome
  · rintro ⟨a, ha, hnone⟩
    cases h : l.mapM f with
    | none => rfl
    | some ys =>
      have hmem := List.mem_map_of_mem (f := f) ha
      rw [map_of_mapM h, hnone] at hmem
      simp at hmem

theorem visit_eq_none_iff {search : PathBuf → Option (List PathBuf)} :
    visit os opts search path = none ↔
      excluded opts path = false ∧ os.isDir path = true ∧ search path = none := by
  rcases visit_cases os opts search path with ⟨hexcluded, hskip⟩ | ⟨hexcluded, hdir, hdescend⟩ |
    ⟨hexcluded, hdir, hfile⟩
  · simp [hskip, hexcluded]
  · simp [hdescend, hexcluded, hdir]
  · simp [hfile, hdir]

/-- A walk runs out of depth exactly when there is a descent of that length. -/
theorem walk_eq_none_iff (hos : os.Lawful) {fuel : Nat} :
    walk os opts fuel dir = none ↔ ∃ names, names.length = fuel ∧ Descends os opts dir names := by
  induction fuel generalizing dir with
  | zero =>
    apply iff_of_true rfl
    exact ⟨[], rfl, trivial⟩
  | succ fuel ih =>
    rw [walk, Option.map_eq_none_iff, mapM_eq_none_iff]
    constructor
    · rintro ⟨entry, hentry, hnone⟩
      obtain ⟨hexcluded, hdir, hwalk⟩ := visit_eq_none_iff.1 hnone
      obtain ⟨name, -, rfl⟩ := hos.entry hentry
      obtain ⟨names, hlen, hdescends⟩ := ih.1 hwalk
      exact ⟨name :: names, by rw [List.length_cons, hlen], hentry, hexcluded, hdir, hdescends⟩
    · rintro ⟨names, hlen, hdescends⟩
      cases names with
      | nil => simp at hlen
      | cons name names =>
        obtain ⟨hentry, hexcluded, hdir, hrest⟩ := hdescends
        have hwalk : walk os opts fuel (dir.join name) = none := by
          apply ih.2
          exact ⟨names, by simpa using hlen, hrest⟩
        exact ⟨dir.join name, hentry, visit_eq_none_iff.2 ⟨hexcluded, hdir, hwalk⟩⟩

end Descents

namespace LinkedFs

variable {N : Type} {fs : LinkedFs N} {root : PathBuf} {top : N} {opts : IngestOptions}
  {names names' : List String}

/-- The names lead from the root to a directory, and no exclude is found on the way. -/
structure OpenDir (fs : LinkedFs N) (root : PathBuf) (top : N) (opts : IngestOptions)
    (names : List String) : Prop where
  dir : ∃ n, fs.follow top names = some n ∧ fs.kind n = .dir
  allowed : excluded opts (root.joins names) = false

/-- The directories on the way to an open directory are open. -/
theorem OpenDir.of_append (h : OpenDir fs root top opts (names ++ names')) :
    OpenDir fs root top opts names := by
  obtain ⟨n, hn, hkind⟩ := h.dir
  rw [follow_append] at hn
  obtain ⟨m, hm, hrest⟩ := Option.bind_eq_some_iff.1 hn
  constructor
  · refine ⟨m, hm, ?_⟩
    by_cases hnames : names' = []
    · rw [hnames, follow, Option.some.injEq] at hrest
      rw [hrest, hkind]
    · exact kind_of_follow hrest hnames
  · apply not_excluded_of_joins
    rw [← PathBuf.joins_append]
    exact h.allowed

theorem descends_iff {first : List String} (hne : names ≠ []) :
    Descends (fs.os root top) opts (root.joins first) names ↔
      OpenDir fs root top opts (first ++ names) := by
  induction names generalizing first with
  | nil => exact absurd rfl hne
  | cons name names ih =>
    have hcut : first ++ name :: names = (first ++ [name]) ++ names := by simp
    rw [Descends, ← PathBuf.joins_concat, hcut]
    constructor
    · rintro ⟨-, hallowed, hdir, hrest⟩
      by_cases hnames : names = []
      · rw [hnames, List.append_nil]
        exact ⟨isDir_joins.1 hdir, hallowed⟩
      · exact (ih hnames).1 hrest
    · intro hopen
      have hfirst := hopen.of_append
      obtain ⟨n, hn, -⟩ := hfirst.dir
      rw [follow_append] at hn
      obtain ⟨m, hm, hlast⟩ := Option.bind_eq_some_iff.1 hn
      rw [follow_singleton] at hlast
      obtain ⟨list, hlist, hname, -⟩ := step_eq_some.1 hlast
      refine ⟨mem_entries.2 ⟨m, list, name, hm, hlist, hname, rfl⟩, hfirst.allowed,
        isDir_joins.2 hfirst.dir, ?_⟩
      by_cases hnames : names = []
      · rw [hnames]
        trivial
      · exact (ih hnames).2 hopen

/-- The walk runs out of depth exactly when a directory that deep is open. -/
theorem walk_succ_eq_none_iff {fuel : Nat} :
    walk (fs.os root top) opts (fuel + 1) root = none ↔
      ∃ names, names.length = fuel + 1 ∧ OpenDir fs root top opts names := by
  rw [walk_eq_none_iff (fs.lawful root top)]
  have hdescends : ∀ names, names.length = fuel + 1 →
      (Descends (fs.os root top) opts root names ↔ OpenDir fs root top opts names) := by
    intro names hlen
    have hne : names ≠ [] := List.ne_nil_of_length_eq_add_one hlen
    have hiff : Descends (fs.os root top) opts (root.joins []) names ↔
        OpenDir fs root top opts ([] ++ names) := descends_iff hne
    rwa [PathBuf.joins_nil, List.nil_append] at hiff
  constructor
  · rintro ⟨names, hlen, h⟩
    exact ⟨names, hlen, (hdescends names hlen).1 h⟩
  · rintro ⟨names, hlen, h⟩
    exact ⟨names, hlen, (hdescends names hlen).2 h⟩

/-! ## Loops -/

/-- Some directory below the root leads back to itself, and going round any number of times meets no
exclude. -/
def Loops (fs : LinkedFs N) (root : PathBuf) (top : N) (opts : IngestOptions) : Prop :=
  ∃ names loop n, loop ≠ [] ∧ fs.follow top names = some n ∧
    fs.follow top (names ++ loop) = some n ∧
    ∀ rounds, excluded opts (root.joins (names ++ power loop rounds)) = false

theorem follow_power {loop : List String} {n : N} (hn : fs.follow top names = some n)
    (hloop : fs.follow top (names ++ loop) = some n) (rounds : Nat) :
    fs.follow top (names ++ power loop rounds) = some n := by
  have honce : fs.follow n loop = some n := by
    rw [follow_append, hn] at hloop
    exact hloop
  induction rounds with
  | zero => rw [power_zero, List.append_nil, hn]
  | succ rounds ih =>
    rw [power_succ, ← List.append_assoc, follow_append, ih]
    exact honce

/-- On a loop the walk never ends. -/
theorem Loops.walk_none (h : Loops fs root top opts) (fuel : Nat) :
    walk (fs.os root top) opts fuel root = none := by
  cases fuel with
  | zero => rfl
  | succ fuel =>
    obtain ⟨names, loop, n, hne, hn, hloop, hallowed⟩ := h
    have hopen : OpenDir fs root top opts (names ++ power loop (fuel + 1)) := by
      refine ⟨⟨n, follow_power hn hloop _, ?_⟩, hallowed _⟩
      rw [follow_append, hn] at hloop
      exact kind_of_follow hloop hne
    have hlen : fuel + 1 ≤ (names ++ power loop (fuel + 1)).length := by
      have hpos : 0 < loop.length := List.length_pos_of_ne_nil hne
      rw [List.length_append, length_power]
      exact Nat.le_trans (Nat.le_mul_of_pos_right _ hpos) (Nat.le_add_left _ _)
    rw [walk_succ_eq_none_iff]
    refine ⟨(names ++ power loop (fuel + 1)).take (fuel + 1), ?_, ?_⟩
    · rw [List.length_take]
      omega
    · rw [← List.take_append_drop (fuel + 1) (names ++ power loop (fuel + 1))] at hopen
      exact hopen.of_append

/-- Excludes that fit into the names `last` cannot tell the rounds of a loop apart, when `last` ends
the path before the loop and after it. -/
theorem allowed_power {first first' last loop : List String} (hfirst : first ≠ [])
    (hfirst' : first' ≠ []) (hends : first ++ last ++ loop = first' ++ last)
    (hshort : ∀ pattern ∈ opts.excludes, pattern.toList.length ≤ last.length)
    (hallowed : excluded opts (root.joins (first ++ last ++ loop)) = false) (rounds : Nat) :
    excluded opts (root.joins (first ++ last ++ power loop rounds)) = false := by
  have hspell : ∀ {before : List String} (after : List String), before ≠ [] →
      (root.joins (before ++ after)).display.toList =
        (root.joins before).display.toList ++ PathBuf.slashed after := by
    intro before after hne
    rw [PathBuf.joins_append, PathBuf.display_joins]
    exact List.append_ne_nil_of_right_ne_nil _ hne
  have hne : first ++ last ≠ [] := List.append_ne_nil_of_left_ne_nil hfirst _
  rw [← Bool.not_eq_true, excluded, List.any_eq_true]
  rintro ⟨pattern, hmem, hfound⟩
  rw [contains, decide_eq_true_eq, hspell _ hne, PathBuf.slashed, flatMap_power] at hfound
  have hlast : PathBuf.slashed last <:+ (root.joins (first ++ last)).display.toList := by
    rw [hspell _ hfirst]
    exact List.suffix_append _ _
  have hround : PathBuf.slashed last <:+
      (root.joins (first ++ last)).display.toList ++ PathBuf.slashed loop := by
    rw [← hspell loop hne, hends, hspell _ hfirst']
    exact List.suffix_append _ _
  have hfits : pattern.toList.length ≤ (PathBuf.slashed last).length :=
    Nat.le_trans (hshort pattern hmem) (PathBuf.length_le_slashed last)
  -- the exclude is found in the path with one round already
  have honce : pattern.toList <:+: (root.joins (first ++ last ++ loop)).display.toList := by
    rw [hspell loop hne]
    exact infix_power hlast hround hfits hfound
  rw [excluded, List.any_eq_false] at hallowed
  exact hallowed pattern hmem (decide_eq_true honce)

theorem finite_names [Finite N] (fs : LinkedFs N) :
    {name : String | ∃ n list, fs.names n = some list ∧ name ∈ list}.Finite := by
  have hunion : (⋃ n, {name | name ∈ (fs.names n).getD []}).Finite :=
    Set.finite_iUnion fun n => List.finite_toSet _
  apply hunion.subset
  rintro name ⟨n, list, hlist, hname⟩
  rw [Set.mem_iUnion]
  refine ⟨n, ?_⟩
  rw [Set.mem_ofPred_eq, hlist]
  exact hname

/-- When directories of every depth are open, one of them is on a loop: two of them on the way to a
deep one are the same inode and end in the same names. -/
theorem loops_of_long [Finite N]
    (h : ∀ fuel, ∃ names, names.length = fuel + 1 ∧ OpenDir fs root top opts names) :
    Loops fs root top opts := by
  let reach := (opts.excludes.map fun pattern => pattern.toList.length).sum
  obtain ⟨bound, hbound⟩ := exists_loopCut (β := Option N) fs.finite_names reach
  obtain ⟨names, hlen, hopen⟩ := h bound
  obtain ⟨m, hm, -⟩ := hopen.dir
  obtain ⟨first, again, last, loop, hreach, hcut⟩ :=
    hbound names (fs.follow top) (by omega) fun name => listed_of_follow hm
  have hround : OpenDir fs root top opts (first ++ last ++ loop) := by
    obtain ⟨rest, hrest⟩ := hcut.begins
    rw [← hrest] at hopen
    exact hopen.of_append
  obtain ⟨n, hn, -⟩ := hround.dir
  refine ⟨first ++ last, loop, n, hcut.loop_ne, hcut.same.trans hn, hn, ?_⟩
  apply allowed_power hcut.first_ne hcut.again_ne hcut.ends _ hround.allowed
  intro pattern hpattern
  rw [hreach]
  exact List.le_sum_of_mem (List.mem_map_of_mem hpattern)

/-- The walk does not end exactly when it can go round a loop. -/
theorem walk_none_iff [Finite N] :
    (∀ fuel, walk (fs.os root top) opts fuel root = none) ↔ Loops fs root top opts := by
  constructor
  · intro h
    apply loops_of_long
    intro fuel
    exact walk_succ_eq_none_iff.1 (h (fuel + 1))
  · intro h fuel
    exact h.walk_none fuel

/-! ## Files listed twice -/

/-- What can be followed from a directory is below it. -/
theorem below_of_follow {n : N} (h : fs.follow top (names ++ names') = some n) (hne : names' ≠ []) :
    Below (fs.os root top) (root.joins names) (root.joins (names ++ names')) := by
  induction names' generalizing names with
  | nil => exact absurd rfl hne
  | cons name rest ih =>
    obtain ⟨m, hm, hrest⟩ := Option.bind_eq_some_iff.1 ((follow_append top names _).symm.trans h)
    obtain ⟨k, hstep, -⟩ := Option.bind_eq_some_iff.1 hrest
    obtain ⟨list, hlist, hname, -⟩ := step_eq_some.1 hstep
    have hentry : root.joins (names ++ [name]) ∈ (fs.os root top).entries (root.joins names) :=
      mem_entries.2 ⟨m, list, name, hm, hlist, hname, rfl⟩
    have hcut : names ++ name :: rest = (names ++ [name]) ++ rest := by simp
    by_cases hlast : rest = []
    · rw [hlast]
      exact Below.entry hentry
    · rw [hcut] at h ⊢
      refine Below.under hentry (isDir_joins.2 ?_) (ih h hlast)
      obtain ⟨d, hd, hbelow⟩ := Option.bind_eq_some_iff.1 ((follow_append top _ _).symm.trans h)
      exact ⟨d, hd, kind_of_follow hbelow hlast⟩

/-- The files that are collected below a directory are the accepted paths to regular files. -/
theorem mem_collectFiles_joins {fuel : Nat} {paths : List PathBuf} {path : PathBuf}
    (hroot : (fs.os root top).isFile root = false)
    (h : collectFiles (fs.os root top) opts fuel root = some paths) :
    path ∈ paths ↔ ∃ names n, path = root.joins names ∧ fs.follow top names = some n ∧
      fs.kind n = .file ∧ accepts path opts = true := by
  have hos : (fs.os root top).Lawful := fs.lawful root top
  rw [mem_collectFiles hos hroot h]
  constructor
  · rintro ⟨hbelow, hfile, haccepts⟩
    obtain ⟨names, -, -, rfl⟩ := hbelow.joins hos
    obtain ⟨n, hn, hkind⟩ := isFile_joins.1 hfile
    exact ⟨names, n, rfl, hn, hkind, haccepts⟩
  · rintro ⟨names, n, rfl, hn, hkind, haccepts⟩
    have hfile : (fs.os root top).isFile (root.joins names) = true := isFile_joins.2 ⟨n, hn, hkind⟩
    have hne : names ≠ [] := by
      rintro rfl
      rw [PathBuf.joins_nil, hroot] at hfile
      exact Bool.false_ne_true hfile
    have hbelow : Below (fs.os root top) (root.joins []) (root.joins ([] ++ names)) :=
      below_of_follow hn hne
    rw [PathBuf.joins_nil, List.nil_append] at hbelow
    exact ⟨hbelow, hfile, haccepts⟩

/-- One regular file has two accepted paths below the root. -/
def Shares (fs : LinkedFs N) (root : PathBuf) (top : N) (opts : IngestOptions) : Prop :=
  ∃ names names' n, names ≠ names' ∧ fs.follow top names = some n ∧
    fs.follow top names' = some n ∧ fs.kind n = .file ∧
    accepts (root.joins names) opts = true ∧ accepts (root.joins names') opts = true

/-- A root that is shared between two paths is a directory. -/
theorem root_of_two_paths {n : N} (hne : names ≠ names') (h : fs.follow top names = some n)
    (h' : fs.follow top names' = some n) : fs.kind top = .dir := by
  by_cases hnames : names = []
  · exact kind_of_follow h' fun hnil => hne (hnames.trans hnil.symm)
  · exact kind_of_follow h hnames

/-! ## Trees -/

/-- Names lead away from the root, and every inode has one name in one directory. -/
structure IsTree (fs : LinkedFs N) : Prop where
  ranked : ∃ rank : N → Nat, ∀ n m name, fs.step n name = some m → rank n < rank m
  unique : ∀ n n' m name name', fs.step n name = some m → fs.step n' name' = some m →
    n = n' ∧ name = name'

theorem rank_follow {rank : N → Nat}
    (hrank : ∀ n m name, fs.step n name = some m → rank n < rank m) {n m : N}
    (h : fs.follow n names = some m) : rank n + names.length ≤ rank m := by
  induction names generalizing n with
  | nil =>
    rw [follow, Option.some.injEq] at h
    rw [h]
    exact Nat.le_refl _
  | cons name names ih =>
    obtain ⟨k, hstep, hrest⟩ := Option.bind_eq_some_iff.1 h
    have hfirst := hrank n k name hstep
    have hbelow := ih hrest
    rw [List.length_cons]
    omega

/-- No names lead from an inode of a tree back to it. -/
theorem IsTree.eq_nil_of_follow (h : IsTree fs) {n : N} (hn : fs.follow n names = some n) :
    names = [] := by
  obtain ⟨rank, hrank⟩ := h.ranked
  have hlen := rank_follow hrank hn
  apply List.eq_nil_of_length_eq_zero
  omega

/-- In a tree one path leads to an inode. -/
theorem IsTree.follow_inj (h : IsTree fs) {n : N} (hn : fs.follow top names = some n)
    (hn' : fs.follow top names' = some n) : names = names' := by
  induction names using List.reverseRecOn generalizing n names' with
  | nil =>
    rw [follow, Option.some.injEq] at hn
    rw [← hn] at hn'
    exact (h.eq_nil_of_follow hn').symm
  | append_singleton names name ih =>
    induction names' using List.reverseRecOn with
    | nil =>
      rw [follow, Option.some.injEq] at hn'
      rw [← hn'] at hn
      exact h.eq_nil_of_follow hn
    | append_singleton names' name' _ =>
      rw [follow_append, Option.bind_eq_some_iff] at hn hn'
      obtain ⟨m, hm, hlast⟩ := hn
      obtain ⟨m', hm', hlast'⟩ := hn'
      rw [follow_singleton] at hlast hlast'
      obtain ⟨rfl, rfl⟩ := h.unique _ _ _ _ _ hlast hlast'
      rw [ih hm hm']

theorem IsTree.not_loops (h : IsTree fs) : ¬Loops fs root top opts := by
  rintro ⟨names, loop, n, hne, hn, hloop, -⟩
  have hsame := h.follow_inj hn hloop
  rw [List.self_eq_append_right] at hsame
  exact hne hsame

theorem IsTree.not_shares (h : IsTree fs) : ¬Shares fs root top opts := by
  rintro ⟨names, names', n, hne, hn, hn', -⟩
  exact hne (h.follow_inj hn hn')

/-! ## When the walk ends and lists no file twice -/

/-- The walk ends, and what it collects are different files. -/
structure WalksOnce (fs : LinkedFs N) (root : PathBuf) (top : N) (opts : IngestOptions) : Prop where
  finite : ∃ fuel, (walk (fs.os root top) opts fuel root).isSome = true
  once : ∀ fuel paths, collectFiles (fs.os root top) opts fuel root = some paths →
    (paths.map (fs.resolve root top)).Nodup

theorem nodup_resolve {fuel : Nat} {paths : List PathBuf} (hshares : ¬Shares fs root top opts)
    (h : collectFiles (fs.os root top) opts fuel root = some paths) :
    (paths.map (fs.resolve root top)).Nodup := by
  cases hroot : (fs.os root top).isFile root with
  | true =>
    rw [collectFiles, if_pos hroot, Option.some.injEq] at h
    rw [← h]
    cases accepts root opts with
    | true => exact List.nodup_singleton _
    | false => exact List.nodup_nil
  | false =>
    have hstrict := collectFiles_strict (fs.lawful root top) hroot h
    have hnodup : paths.Nodup := by
      apply hstrict.imp
      rintro path _ hlt rfl
      exact lt_irrefl _ hlt
    apply List.Nodup.map_on _ hnodup
    intro path hpath path' hpath' heq
    obtain ⟨names, n, rfl, hn, hkind, haccepts⟩ := (mem_collectFiles_joins hroot h).1 hpath
    obtain ⟨names', n', rfl, hn', -, haccepts'⟩ := (mem_collectFiles_joins hroot h).1 hpath'
    rw [resolve_joins, resolve_joins] at heq
    by_contra hne
    apply hshares
    refine ⟨names, names', n, fun h => hne (by rw [h]), hn, ?_, hkind, haccepts, haccepts'⟩
    rw [← heq, hn]

theorem WalksOnce.not_shares (h : WalksOnce fs root top opts) : ¬Shares fs root top opts := by
  rintro ⟨names, names', n, hne, hn, hn', hkind, haccepts, haccepts'⟩
  have hroot : (fs.os root top).isFile root = false := by
    apply (fs.lawful root top).kinds
    have htop : (fs.os root top).isDir (root.joins []) = true :=
      isDir_joins.2 ⟨top, rfl, root_of_two_paths hne hn hn'⟩
    rwa [PathBuf.joins_nil] at htop
  obtain ⟨fuel, hwalk⟩ := h.finite
  obtain ⟨l, hl⟩ := Option.isSome_iff_exists.1 hwalk
  have hcollect : collectFiles (fs.os root top) opts fuel root = some (sortPaths l) := by
    rw [collectFiles, if_neg (Bool.eq_false_iff.1 hroot), hl, Option.map_some]
  have hmem : root.joins names ∈ sortPaths l :=
    (mem_collectFiles_joins hroot hcollect).2 ⟨names, n, rfl, hn, hkind, haccepts⟩
  have hmem' : root.joins names' ∈ sortPaths l :=
    (mem_collectFiles_joins hroot hcollect).2 ⟨names', n, rfl, hn', hkind, haccepts'⟩
  have hsame : fs.resolve root top (root.joins names) =
      fs.resolve root top (root.joins names') := by
    rw [resolve_joins, resolve_joins, hn, hn']
  have heq := List.inj_on_of_nodup_map (h.once fuel _ hcollect) hmem hmem' hsame
  exact hne (PathBuf.joins_inj.1 heq)

/-- The walk ends and collects no file twice exactly when it can go round no loop and no file has
two accepted paths. -/
theorem walksOnce_iff [Finite N] (fs : LinkedFs N) (root : PathBuf) (top : N)
    (opts : IngestOptions) :
    WalksOnce fs root top opts ↔ ¬Loops fs root top opts ∧ ¬Shares fs root top opts := by
  constructor
  · intro h
    refine ⟨fun hloops => ?_, h.not_shares⟩
    obtain ⟨fuel, hwalk⟩ := h.finite
    rw [hloops.walk_none fuel] at hwalk
    exact Bool.false_ne_true hwalk
  · rintro ⟨hloops, hshares⟩
    rw [← walk_none_iff, not_forall] at hloops
    obtain ⟨fuel, hwalk⟩ := hloops
    exact ⟨⟨fuel, Option.isSome_iff_ne_none.2 hwalk⟩, fun fuel paths h => nodup_resolve hshares h⟩

section Notes

open Reference

/-- A directory of notes with a link to itself: `true` is the directory and `false` the note. -/
def selfLinked : LinkedFs Bool where
  kind n := if n then .dir else .file
  names n := if n then some ["a.md", "self"] else none
  child n name := if n then (if name = "self" then some true else some false) else none
  proper := by
    rintro (_ | _) list ⟨⟩
    decide
  nodup := by
    rintro (_ | _) list ⟨⟩
    decide
  readable := by
    rintro (_ | _) list ⟨⟩
    rfl

/-- The walk follows the link for ever. -/
theorem not_walksOnce_selfLinked : ¬WalksOnce selfLinked notes true markdown := by
  intro h
  have hloops : Loops selfLinked notes true markdown := by
    -- fourteen rounds are as long as the longest exclude
    refine ⟨["self"] ++ List.replicate 14 "self", ["self"], true, List.cons_ne_nil _ _, rfl, rfl,
      ?_⟩
    apply allowed_power (List.cons_ne_nil _ _) (List.cons_ne_nil "self" ["self"]) rfl
    · decide
    · decide +kernel
  obtain ⟨fuel, hwalk⟩ := h.finite
  rw [hloops.walk_none fuel] at hwalk
  exact Bool.false_ne_true hwalk

/-- A directory of notes with a link to an archive elsewhere: `0` and `2` are the directories, `1`
and `3` a note in each. -/
def archived : LinkedFs (Fin 4) where
  kind n := if n = 0 ∨ n = 2 then .dir else .file
  names n := if n = 0 then some ["a.md", "archive"] else if n = 2 then some ["b.md"] else none
  child n name := if n = 0 then (if name = "archive" then some 2 else some 1)
    else if n = 2 then some 3 else none
  proper := by
    intro n list h
    fin_cases n <;> cases h <;> decide
  nodup := by
    intro n list h
    fin_cases n <;> cases h <;> decide
  readable := by
    intro n list h
    fin_cases n <;> cases h <;> rfl

def archivedLinks : List (Fin 4 × String × Fin 4) :=
  [(0, "a.md", 1), (0, "archive", 2), (2, "b.md", 3)]

theorem isTree_archived : archived.IsTree := by
  have hlinks : ∀ {n m name}, archived.step n name = some m → (n, name, m) ∈ archivedLinks := by
    intro n m name h
    obtain ⟨list, hlist, hname, hchild⟩ := step_eq_some.1 h
    fin_cases n <;> cases hlist <;> fin_cases hname <;> cases hchild <;> decide
  have hranked : ∀ link ∈ archivedLinks, link.1.val < link.2.2.val := by decide
  have hunique : ∀ link ∈ archivedLinks, ∀ link' ∈ archivedLinks, link.2.2 = link'.2.2 →
      link.1 = link'.1 ∧ link.2.1 = link'.2.1 := by decide
  refine ⟨⟨Fin.val, fun n m name h => ?_⟩, fun n n' m name name' h h' => ?_⟩
  · exact hranked _ (hlinks h)
  · exact hunique _ (hlinks h) _ (hlinks h') rfl

theorem walksOnce_iff_archived : WalksOnce archived notes 0 markdown :=
  (walksOnce_iff archived notes 0 markdown).2
    ⟨isTree_archived.not_loops, isTree_archived.not_shares⟩

end Notes

end LinkedFs

end SkegRigging.Ingest
