import SkegRigging.Reference.Files

/-!
# The bytes of a directory

`sum_dir_bytes` recurses over a directory on its own, apart from `copy_dir_contents`, and adds up
the lengths of the regular files that it finds; what cannot be read contributes nothing. A file
length is a `u64`, and so is the sum.

When no call fails the sum is that of all files at any depth (`sumDirBytes_quiet`). A copy has the
files of its source, so the two sums agree (`copyDirContents_size`).
-/

set_option autoImplicit false

namespace SkegRigging.Fs

open FileTree

variable {F S C : Type} {E : DiskVamanaIndex F S}

/-- What the operating system makes of the calls of one `sum_dir_bytes`, each looked up under the
path it is about. An entry that cannot be read, or whose type cannot, is `entry`. -/
structure StatEnv where
  readDir : List String → Option IoError
  order : List String → List String
  entry : List String → Option IoError
  metadata : List String → Option IoError

section Sum

variable (len : C → UInt64) (env : StatEnv) (fs : FileTree String C)

/-- One iteration of the loop; `sumDir` is the recursive call. A failure skips the entry. -/
def sumEntry (sumDir : List String → Option UInt64) (dir : List String) (total : UInt64)
    (name : String) : Option UInt64 :=
  match env.entry (dir ++ [name]) with
  | some _ => some total
  | none =>
    match fs.node (dir ++ [name]) with
    | some (.file c) =>
      match env.metadata (dir ++ [name]) with
      | some _ => some total
      | none => some (total + len c)
    | some .dir => (sumDir (dir ++ [name])).map fun bytes => total + bytes
    | some .special | none => some total

/-- The loop over the entries of `dir`. -/
def sumEntries (sumDir : List String → Option UInt64) (dir : List String) :
    UInt64 → List String → Option UInt64
  | total, [] => some total
  | total, name :: names =>
    match sumEntry len env fs sumDir dir total name with
    | none => none
    | some total => sumEntries sumDir dir total names

/-- Recursive sum of every regular file's length under `dir`, at most `fuel` levels deep. -/
def sumDirBytes : Nat → List String → Option UInt64
  | 0, _ => none
  | fuel + 1, dir =>
    match env.readDir dir with
    | some _ => some 0
    | none =>
      match fs.node dir with
      | some .dir => sumEntries len env fs (sumDirBytes fuel) dir 0 (env.order dir)
      | some _ | none => some 0

/-- `TenantStats::bytes_on_disk`. -/
def bytesOnDisk (fuel : Nat) (t : Tenant E) : Option UInt64 :=
  sumDirBytes len env fs fuel t.dir.components

end Sum

/-- No call of the operating system fails. -/
structure StatEnv.Quiet (env : StatEnv) : Prop where
  readDir : ∀ p, env.readDir p = none
  entry : ∀ p, env.entry p = none
  metadata : ∀ p, env.metadata p = none

/-- Nothing fails; a directory is enumerated as told. -/
def calmStat (order : List String → List String) : StatEnv where
  readDir _ := none
  order := order
  entry _ := none
  metadata _ := none

theorem quiet_calmStat (order : List String → List String) : (calmStat order).Quiet :=
  ⟨fun _ => rfl, fun _ => rfl, fun _ => rfl⟩

/-- The lengths of the files, added up. -/
def lengths (len : C → UInt64) (files : List (List String × C)) : Nat :=
  (files.map fun f => (len f.2).toNat).sum

section Lengths

variable {len : C → UInt64} {files files' : List (List String × C)}

theorem lengths_append :
    lengths len (files ++ files') = lengths len files + lengths len files' := by
  rw [lengths, List.map_append, List.sum_append]
  rfl

/-- The lengths do not depend on where the files are. -/
theorem lengths_below (n : String) :
    lengths len (files.map fun f => (n :: f.1, f.2)) = lengths len files := by
  rw [lengths, List.map_map]
  rfl

theorem lengths_perm (h : files'.Perm files) : lengths len files' = lengths len files :=
  (h.map _).sum_eq

end Lengths

section Quiet

variable {len : C → UInt64} {env : StatEnv} {fs : FileTree String C}
  {sumDir : List String → Option UInt64} {dir : List String} {n : String} {k : Nat}

/-- The recursive call adds up directories that are at most `k` levels deep. -/
def CallSums (len : C → UInt64) (env : StatEnv) (fs : FileTree String C) (k : Nat)
    (sumDir : List String → Option UInt64) : Prop :=
  ∀ dir, fs.node dir = some .dir → Lists env.order fs dir → DepthLE fs dir k →
    ∃ files, ListsFiles fs dir files ∧ sumDir dir = some (UInt64.ofNat (lengths len files))

/-- One entry adds the files at or below it. -/
theorem sumEntry_quiet (henv : env.Quiet) (hrec : CallSums len env fs k sumDir)
    (hlists : Lists env.order fs dir) (hdepth : DepthLE fs dir (k + 1)) (n : String) :
    ∃ files, ListsFiles fs (dir ++ [n]) files ∧ ∀ total,
      sumEntry len env fs sumDir dir total n = some (total + UInt64.ofNat (lengths len files)) := by
  cases hnode : fs.node (dir ++ [n]) with
  | none =>
    refine ⟨[], listsFiles_nil (by simp [hnode]) (by simp [hnode]), fun total => ?_⟩
    rw [sumEntry, henv.entry, hnode]
    simp [lengths]
  | some node =>
    cases node with
    | dir =>
      obtain ⟨files, hfiles, hsum⟩ := hrec _ hnode (hlists.below [n]) (hdepth.below n)
      refine ⟨files, hfiles, fun total => ?_⟩
      rw [sumEntry, henv.entry, hnode]
      dsimp only
      rw [hsum, Option.map_some]
    | file c =>
      refine ⟨[([], c)], listsFiles_file hnode, fun total => ?_⟩
      rw [sumEntry, henv.entry, hnode]
      dsimp only
      rw [henv.metadata]
      simp [lengths]
    | special =>
      refine ⟨[], listsFiles_nil (by simp [hnode]) (by simp [hnode]), fun total => ?_⟩
      rw [sumEntry, henv.entry, hnode]
      simp [lengths]

/-- The loop adds the files at or below the entries it goes over. -/
theorem sumEntries_quiet (henv : env.Quiet) (hrec : CallSums len env fs k sumDir)
    (hlists : Lists env.order fs dir) (hdepth : DepthLE fs dir (k + 1)) {names : List String}
    (hnodup : names.Nodup) :
    ∃ files, ListsBelow fs dir names files ∧ ∀ total,
      sumEntries len env fs sumDir dir total names =
        some (total + UInt64.ofNat (lengths len files)) := by
  induction names with
  | nil =>
    refine ⟨[], listsBelow_nil fs dir, fun total => ?_⟩
    rw [sumEntries]
    simp [lengths]
  | cons n names ih =>
    obtain ⟨hn, hnames⟩ := List.nodup_cons.1 hnodup
    obtain ⟨files, hfiles, hentry⟩ := sumEntry_quiet henv hrec hlists hdepth n
    obtain ⟨files', hfiles', hloop⟩ := ih hnames
    refine ⟨_, hfiles'.cons hn hfiles, fun total => ?_⟩
    rw [sumEntries, hentry]
    dsimp only
    rw [hloop, lengths_append, lengths_below, UInt64.ofNat_add, UInt64.add_assoc]

/-- Without failures, the sum is that of the lengths of all files at any depth. Fuel beyond the
depth of the directory is enough. -/
theorem sumDirBytes_quiet (henv : env.Quiet) {fuel : Nat} (hdir : fs.node dir = some .dir)
    (hlists : Lists env.order fs dir) (hdepth : DepthLE fs dir k) (hfuel : k < fuel) :
    ∃ files, ListsFiles fs dir files ∧
      sumDirBytes len env fs fuel dir = some (UInt64.ofNat (lengths len files)) := by
  induction fuel generalizing dir k with
  | zero => exact absurd hfuel (Nat.not_lt_zero k)
  | succ fuel ih =>
    obtain ⟨hnodup, hmem⟩ := hlists dir (List.prefix_refl _) hdir
    obtain ⟨files, hfiles, hloop⟩ : ∃ files, ListsBelow fs dir (env.order dir) files ∧
        ∀ total, sumEntries len env fs (sumDirBytes len env fs fuel) dir total (env.order dir) =
          some (total + UInt64.ofNat (lengths len files)) := by
      cases k with
      | zero =>
        rw [hlists.eq_nil hdir hdepth]
        refine ⟨[], listsBelow_nil fs dir, fun total => ?_⟩
        rw [sumEntries]
        simp [lengths]
      | succ k =>
        have hrec : CallSums len env fs k (sumDirBytes len env fs fuel) :=
          fun _ hdir hlists hdepth => ih hdir hlists hdepth (Nat.lt_of_succ_lt_succ hfuel)
        exact sumEntries_quiet henv hrec hlists hdepth hnodup
    refine ⟨files, hfiles.listsFiles hdir fun n => (hmem n).2, ?_⟩
    rw [sumDirBytes, henv.readDir, hdir]
    dsimp only
    rw [hloop, UInt64.zero_add]

/-- The sum for any list of the files. -/
theorem sumDirBytes_eq (henv : env.Quiet) {fuel : Nat} (hdir : fs.node dir = some .dir)
    (hlists : Lists env.order fs dir) (hdepth : DepthLE fs dir k) (hfuel : k < fuel)
    {files : List (List String × C)} (hfiles : ListsFiles fs dir files) :
    sumDirBytes len env fs fuel dir = some (UInt64.ofNat (lengths len files)) := by
  obtain ⟨files', hfiles', hsum⟩ : ∃ files', ListsFiles fs dir files' ∧
      sumDirBytes len env fs fuel dir = some (UInt64.ofNat (lengths len files')) :=
    sumDirBytes_quiet henv hdir hlists hdepth hfuel
  rw [hsum, lengths_perm (hfiles.perm hfiles' fun r c => Iff.rfl)]

/-- The files of a directory that is not infinitely deep. -/
theorem exists_listsFiles (hdir : fs.node dir = some .dir) (hdepth : DepthLE fs dir k) :
    ∃ files, ListsFiles fs dir files := by
  obtain ⟨order, hlists⟩ := exists_lists fs dir
  obtain ⟨files, hfiles, -⟩ : ∃ files, ListsFiles fs dir files ∧
      sumDirBytes (fun _ => 0) (calmStat order) fs (k + 1) dir =
        some (UInt64.ofNat (lengths _ files)) :=
    sumDirBytes_quiet (quiet_calmStat order) hdir hlists hdepth (Nat.lt_succ_self k)
  exact ⟨files, hfiles⟩

end Quiet

/-- A copy has the files of its source. -/
theorem DirCopied.listsFiles {fs fs' : FileTree String C} {src dest : List String}
    {files : List (List String × C)} (h : DirCopied fs fs' src dest)
    (hsrc : fs.node src = some .dir) (hdest : fs'.node dest = some .dir)
    (hfiles : ListsFiles fs src files) : ListsFiles fs' dest files := by
  refine ⟨hfiles.nodup, fun r c => ?_⟩
  rw [hfiles.mem]
  by_cases hr : r = []
  · rw [hr, List.append_nil, List.append_nil, hsrc, hdest]
  · rw [h.below r hr]
    rcases fs.node (src ++ r) with - | (- | c' | -) <;> simp [copied]

/-- A copy of a directory, at any depth and in any order of enumeration, into an empty directory
outside it: the destination has its directories and regular files with equal contents and nothing
else, the rest of the file system is as it was, and the sums of both are that of the lengths of all
its regular files. -/
theorem copyDirContents_size (len : C → UInt64) (empty : C) {fs : FileTree String C}
    {src dest : List String} {k : Nat} (hsrc : fs.node src = some .dir)
    (hdest : fs.node dest = some .dir) (hempty : EmptyBelow fs dest) (houtside : ¬ src <+: dest)
    (hdepth : DepthLE fs src k) :
    ∃ files, ListsFiles fs src files ∧
      (∀ stat : StatEnv, stat.Quiet → Lists stat.order fs src → ∀ fuel, k < fuel →
        sumDirBytes len stat fs fuel src = some (UInt64.ofNat (lengths len files))) ∧
      (lengths len files < 2 ^ 64 →
        (UInt64.ofNat (lengths len files)).toNat = lengths len files) ∧
      ∀ env : FsEnv C, Quiet env → Lists env.order fs src → ∀ fuel, k < fuel →
        ∃ fs', copyDirContents empty env fuel fs src dest = some (fs', .ok ()) ∧
          DirCopied fs fs' src dest ∧
          ∀ stat : StatEnv, stat.Quiet → Lists stat.order fs' dest → ∀ fuel, k < fuel →
            sumDirBytes len stat fs' fuel dest = some (UInt64.ofNat (lengths len files)) := by
  obtain ⟨files, hfiles⟩ := exists_listsFiles hsrc hdepth
  refine ⟨files, hfiles, ?_, UInt64.toNat_ofNat_of_lt', ?_⟩
  · intro stat hstat hlists fuel hfuel
    exact sumDirBytes_eq hstat hsrc hlists hdepth hfuel hfiles
  · intro env henv hlists fuel hfuel
    have hapart : Apart src dest := apart_of_empty hsrc hempty houtside
    obtain ⟨fs', hcopy, hcopied⟩ : ∃ fs', copyDirContents empty env fuel fs src dest =
        some (fs', .ok ()) ∧ DirCopied fs fs' src dest :=
      copyDirContents_full henv hapart hsrc hdest hempty hlists hdepth hfuel
    refine ⟨fs', hcopy, hcopied, ?_⟩
    have hdest' : fs'.node dest = some .dir := by
      rw [hcopied.frame dest fun n hle => by simpa using hle.length_le, hdest]
    intro stat hstat hlists' fuel hfuel
    exact sumDirBytes_eq hstat hdest' hlists' (hcopied.depth hdepth) hfuel
      (hcopied.listsFiles hsrc hdest' hfiles)

section Shelf

open Reference

/-- A directory with a file and a subdirectory that holds another, beside an empty directory. -/
def shelf : FileTree String Bytes :=
  saved ["src", "sub"] "b" [3] (saved ["src"] "a" [1, 2]
    ((bare.makeDirs ["dest"]).makeDirs ["src", "sub"]))

theorem node_shelf (q : List String) : shelf.node q =
    if q = ["src", "sub", "b"] then some (.file [3])
    else if q = ["src", "a"] then some (.file [1, 2])
    else if q <+: ["src", "sub"] then some .dir
    else if q <+: ["dest"] then some .dir else bare.node q := by
  rw [shelf, node_saved (by decide +kernel), node_saved (by decide +kernel), node_makeDirs,
    node_makeDirs]
  rfl

/-- What is at and below the directory. -/
theorem node_shelf_src (r : List String) : shelf.node (["src"] ++ r) =
    if r = ["sub", "b"] then some (.file [3])
    else if r = ["a"] then some (.file [1, 2])
    else if r <+: ["sub"] then some .dir else none := by
  have hroot : bare.node ("src" :: r) = (none : Option (Node Bytes)) := rfl
  rw [node_shelf, List.cons_append, List.nil_append, hroot]
  simp [List.cons_prefix_cons]

theorem depth_shelf : DepthLE shelf ["src"] 2 := by
  intro r hr
  rw [FileTree.exists, node_shelf_src] at hr
  by_contra hlong
  have hfile : ∀ p : List String, p.length ≤ 2 → r ≠ p := by
    rintro p hp rfl
    exact hlong hp
  have hdir : ¬ r <+: ["sub"] := by
    intro hle
    apply hlong
    exact hle.length_le.trans (by decide)
  simp [hfile ["sub", "b"] (by decide), hfile ["a"] (by decide), hdir] at hr

theorem emptyBelow_shelf : EmptyBelow shelf ["dest"] := by
  intro r hr
  have hroot : bare.node ("dest" :: r) = (none : Option (Node Bytes)) := rfl
  rw [node_shelf, List.cons_append, List.nil_append, hroot]
  simp [List.cons_prefix_cons, List.prefix_nil, hr]

theorem copyDirContents_size_shelf : ∃ out back fs' bytes,
    copyDirContents [] (calm out) 3 shelf ["src"] ["dest"] = some (fs', .ok ()) ∧
      DirCopied shelf fs' ["src"] ["dest"] ∧
      sumDirBytes (fun c => UInt64.ofNat c.length) (calmStat back) fs' 3 ["dest"] = some bytes ∧
      sumDirBytes (fun c => UInt64.ofNat c.length) (calmStat out) shelf 3 ["src"] = some bytes := by
  have hsrc : shelf.node ["src"] = some .dir := by
    rw [node_shelf]
    decide
  have hdest : shelf.node ["dest"] = some .dir := by
    rw [node_shelf]
    decide
  have houtside : ¬ ["src"] <+: ["dest"] := by decide
  obtain ⟨out, hout⟩ := exists_lists shelf ["src"]
  obtain ⟨files, -, hsum, -, hcopies⟩ := copyDirContents_size
    (fun c : Bytes => UInt64.ofNat c.length) [] hsrc hdest emptyBelow_shelf houtside depth_shelf
  obtain ⟨fs', hcopy, hcopied, hback⟩ :=
    hcopies (calm out) (quiet_calm out) hout 3 (Nat.lt_succ_self 2)
  obtain ⟨back, hlists⟩ := exists_lists fs' ["dest"]
  exact ⟨out, back, fs', _, hcopy, hcopied,
    hback _ (quiet_calmStat back) hlists 3 (Nat.lt_succ_self 2),
    hsum _ (quiet_calmStat out) hout 3 (Nat.lt_succ_self 2)⟩

end Shelf

end SkegRigging.Fs
