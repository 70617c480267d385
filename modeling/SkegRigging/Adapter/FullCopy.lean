import SkegRigging.Adapter.FileCopySpec

/-!
# A copy that nothing disturbs

When no call of the operating system fails and every directory is listed in full, a copy into a new
directory makes the same tree there, whatever its nesting, and changes nothing else
(`copyDirContents_full`). What is neither a file nor a directory is left out.
-/

set_option autoImplicit false

namespace SkegRigging.Fs

open FileTree

variable {C : Type}

/-- No call of the operating system fails. -/
structure Quiet (env : FsEnv C) : Prop where
  createDir : ∀ p, env.createDir p = none
  readDir : ∀ p, env.readDir p = none
  entry : ∀ p, env.entry p = none
  copy : ∀ p, env.copy p = .done

/-- What a copy makes of what it finds. -/
def copied : Option (Node C) → Option (Node C)
  | some .special => none
  | o => o

/-- Nothing is below the path. -/
def EmptyBelow (fs : FileTree String C) (p : List String) : Prop :=
  ∀ r, r ≠ [] → fs.node (p ++ r) = none

/-- An empty directory is apart from any other that it does not lie in. -/
theorem apart_of_empty {fs : FileTree String C} {src dest : List String}
    (hsrc : fs.node src = some .dir) (hempty : EmptyBelow fs dest) (houtside : ¬ src <+: dest) :
    Apart src dest := by
  refine ⟨houtside, ?_⟩
  rintro ⟨r, rfl⟩
  have hne : r ≠ [] := by
    rintro rfl
    rw [List.append_nil] at houtside
    exact houtside (List.prefix_refl dest)
  rw [hempty r hne] at hsrc
  cases hsrc

/-- The entry `n` of `src` was copied to `dest`, and nothing else changed. -/
structure EntryCopied (fs fs' : FileTree String C) (src dest : List String) (n : String) :
    Prop where
  below : ∀ r, fs'.node (dest ++ [n] ++ r) = copied (fs.node (src ++ [n] ++ r))
  frame : ∀ q, ¬ dest ++ [n] <+: q → fs'.node q = fs.node q

/-- The directory `src` was copied to `dest`, and nothing else changed. -/
structure DirCopied (fs fs' : FileTree String C) (src dest : List String) : Prop where
  below : ∀ r, r ≠ [] → fs'.node (dest ++ r) = copied (fs.node (src ++ r))
  frame : ∀ q, (∀ n, ¬ dest ++ [n] <+: q) → fs'.node q = fs.node q

theorem DirCopied.depth {fs fs' : FileTree String C} {src dest : List String} {k : Nat}
    (h : DirCopied fs fs' src dest) (hdepth : DepthLE fs src k) : DepthLE fs' dest k := by
  intro r hr
  by_cases hne : r = []
  · simp [hne]
  · rw [FileTree.exists, h.below r hne] at hr
    apply hdepth r
    cases hnode : fs.node (src ++ r) with
    | none => simp [hnode, copied] at hr
    | some node => rw [FileTree.exists, hnode]; rfl

section Copy

variable {empty : C} {env : FsEnv C} {fs : FileTree String C} {src dest : List String} {n : String}

/-- A file. -/
theorem copyFile_full {c : C} (hfile : fs.content (src ++ [n]) = some c) (hapart : Apart src dest)
    (hdest : fs.node dest = some .dir) (hfree : ∀ r, fs.node (dest ++ [n] ++ r) = none) :
    ∃ fs', copyFile empty .done fs (src ++ [n]) dest n = (fs', .ok ()) ∧
      EntryCopied fs fs' src dest n := by
  have hnone : fs.node (dest ++ [n]) = none := by simpa using hfree []
  obtain ⟨fs', hcopy, hcontent, hrest⟩ := copyFile_done hfile (writable_of_none hdest hnone)
  rw [if_neg (hapart.append [n] [n]).ne] at hcontent
  have hnode := content_eq_some_iff.1 hfile
  refine ⟨fs', hcopy, ?_, ?_⟩
  · intro r
    rcases r with - | ⟨m, r⟩
    · rw [List.append_nil, List.append_nil, hnode, content_eq_some_iff.1 hcontent]
      rfl
    · have hbelow : fs.node (src ++ [n] ++ m :: r) = none :=
        none_below (List.cons_ne_nil m r) (by rw [hnode]; simp)
      rw [hbelow, hrest _ (by simp), hfree]
      rfl
  · intro q hq
    apply hrest
    rintro rfl
    exact hq (List.prefix_refl _)

/-- What is neither a file nor a directory. -/
theorem skip_full (hspecial : fs.node (src ++ [n]) = some .special)
    (hfree : ∀ r, fs.node (dest ++ [n] ++ r) = none) : EntryCopied fs fs src dest n := by
  refine ⟨?_, fun _ _ => rfl⟩
  intro r
  rcases r with - | ⟨m, r⟩
  · rw [hfree, List.append_nil, hspecial]
    rfl
  · have hbelow : fs.node (src ++ [n] ++ m :: r) = none :=
      none_below (List.cons_ne_nil m r) (by rw [hspecial]; simp)
    rw [hbelow, hfree]
    rfl

/-- The recursive call copies directories that are at most `k` levels deep. -/
def CallCopies (env : FsEnv C) (k : Nat) (copyDir : FileTree String C → List String → List String →
    Option (FileTree String C × Except IoError Unit)) : Prop :=
  ∀ fs src dest, Apart src dest → fs.node src = some .dir → fs.node dest = some .dir →
    EmptyBelow fs dest → Lists env.order fs src → DepthLE fs src k →
    ∃ fs', copyDir fs src dest = some (fs', .ok ()) ∧ DirCopied fs fs' src dest

variable {copyDir : FileTree String C → List String → List String →
    Option (FileTree String C × Except IoError Unit)} {k : Nat}

/-- A subdirectory: it is made first. -/
theorem copySubdir_full (henv : Quiet env) (hrec : CallCopies env k copyDir)
    (hsub : fs.node (src ++ [n]) = some .dir) (hapart : Apart src dest)
    (hdest : fs.node dest = some .dir) (hfree : ∀ r, fs.node (dest ++ [n] ++ r) = none)
    (hlists : Lists env.order fs src) (hdepth : DepthLE fs src (k + 1)) :
    ∃ fs', copyEntry empty env copyDir src dest fs n = some (fs', .ok ()) ∧
      EntryCopied fs fs' src dest n := by
  have hnone : fs.node (dest ++ [n]) = none := by simpa using hfree []
  have hmake : fs.CanMake (dest ++ [n]) := canMake_append hdest (Or.inl hnone)
  -- making the directory changes nothing but its path
  have hkeep : ∀ q, q ≠ dest ++ [n] → (fs.makeDirs (dest ++ [n])).node q = fs.node q := by
    intro q hq
    rw [node_makeDirs]
    split
    · rename_i hle
      rcases List.prefix_concat_iff.1 hle with rfl | hle
      · exact absurd rfl hq
      · exact (dir_above hle hdest).symm
    · rfl
  have hsrc : ∀ r, (fs.makeDirs (dest ++ [n])).node (src ++ [n] ++ r) =
      fs.node (src ++ [n] ++ r) := by
    intro r
    apply hkeep
    rw [List.append_assoc]
    exact (hapart.append ([n] ++ r) [n]).ne
  have hsub' : (fs.makeDirs (dest ++ [n])).node (src ++ [n]) = some .dir := by
    have h := hsrc []
    rw [List.append_nil] at h
    rw [h, hsub]
  have hempty : EmptyBelow (fs.makeDirs (dest ++ [n])) (dest ++ [n]) := by
    intro r hr
    rw [hkeep _ (by simpa using hr), hfree]
  have hlists' : Lists env.order (fs.makeDirs (dest ++ [n])) (src ++ [n]) :=
    (hlists.below [n]).congr hsrc
  have hdepth' : DepthLE (fs.makeDirs (dest ++ [n])) (src ++ [n]) k := (hdepth.below n).congr hsrc
  obtain ⟨fs', hcall, hcopied⟩ := hrec _ _ _ (hapart.append [n] [n]) hsub' node_makeDirs_self
    hempty hlists' hdepth'
  refine ⟨fs', ?_, ?_, ?_⟩
  · have hmk : createDirAll (env.createDir (dest ++ [n])) fs (dest ++ [n]) =
        (fs.makeDirs (dest ++ [n]), .ok ()) := by
      rw [henv.createDir, createDirAll, if_pos hmake]
    rw [copyEntry, henv.entry, hsub]
    dsimp only
    rw [hmk]
    exact hcall
  · intro r
    rcases List.eq_nil_or_concat r with rfl | ⟨r, m, rfl⟩
    · have hself : ∀ m, ¬ dest ++ [n] ++ [m] <+: dest ++ [n] := by
        intro m hle
        simpa using hle.length_le
      rw [List.append_nil, List.append_nil, hcopied.frame _ hself, node_makeDirs_self, hsub]
      rfl
    · rw [hcopied.below _ (by simp), hsrc]
  · intro q hq
    rw [hcopied.frame q fun m hle => hq ((List.prefix_append _ _).trans hle)]
    apply hkeep
    rintro rfl
    exact hq (List.prefix_refl _)

/-- One iteration of the loop. -/
theorem copyEntry_full (henv : Quiet env) (hrec : CallCopies env k copyDir)
    (hthere : fs.exists (src ++ [n]) = true) (hapart : Apart src dest)
    (hdest : fs.node dest = some .dir) (hfree : ∀ r, fs.node (dest ++ [n] ++ r) = none)
    (hlists : Lists env.order fs src) (hdepth : DepthLE fs src (k + 1)) :
    ∃ fs', copyEntry empty env copyDir src dest fs n = some (fs', .ok ()) ∧
      EntryCopied fs fs' src dest n := by
  obtain ⟨node, hnode⟩ := Option.isSome_iff_exists.1 hthere
  cases node with
  | dir => exact copySubdir_full henv hrec hnode hapart hdest hfree hlists hdepth
  | file c =>
    obtain ⟨fs', hcopy, hcopied⟩ : ∃ fs', copyFile empty .done fs (src ++ [n]) dest n =
        (fs', .ok ()) ∧ EntryCopied fs fs' src dest n :=
      copyFile_full (content_eq_some_iff.2 hnode) hapart hdest hfree
    refine ⟨fs', ?_, hcopied⟩
    rw [copyEntry, henv.entry, hnode]
    dsimp only
    rw [henv.copy, hcopy]
  | special =>
    refine ⟨fs, ?_, skip_full hnode hfree⟩
    rw [copyEntry, henv.entry, hnode]

/-- The loop. The entries before the current one do not matter to it, nor does it to them. -/
theorem copyEntries_full (henv : Quiet env) (hrec : CallCopies env k copyDir) {names : List String}
    (hnodup : names.Nodup) (hthere : ∀ n ∈ names, fs.exists (src ++ [n]) = true)
    (hapart : Apart src dest) (hdest : fs.node dest = some .dir)
    (hfree : ∀ n ∈ names, ∀ r, fs.node (dest ++ [n] ++ r) = none)
    (hlists : Lists env.order fs src) (hdepth : DepthLE fs src (k + 1)) :
    ∃ fs', copyEntries empty env copyDir src dest fs names = some (fs', .ok ()) ∧
      (∀ n ∈ names, ∀ r, fs'.node (dest ++ [n] ++ r) = copied (fs.node (src ++ [n] ++ r))) ∧
      ∀ q, (∀ n ∈ names, ¬ dest ++ [n] <+: q) → fs'.node q = fs.node q := by
  induction names generalizing fs with
  | nil => exact ⟨fs, rfl, by simp, fun _ _ => rfl⟩
  | cons n names ih =>
    obtain ⟨hn, hnames⟩ := List.nodup_cons.1 hnodup
    obtain ⟨fs₁, hentry, hcopied⟩ : ∃ fs₁, copyEntry empty env copyDir src dest fs n =
        some (fs₁, .ok ()) ∧ EntryCopied fs fs₁ src dest n :=
      copyEntry_full henv hrec (hthere n List.mem_cons_self) hapart hdest
        (hfree n List.mem_cons_self) hlists hdepth
    have hsrc : ∀ r, fs₁.node (src ++ r) = fs.node (src ++ r) := by
      intro r
      exact hcopied.frame _ (hapart.symm.append [n] r).1
    have hother : ∀ m ∈ names, ∀ r, ¬ dest ++ [n] <+: dest ++ [m] ++ r := by
      rintro m hm r hle
      exact hn (entry_unique hle (List.prefix_append _ _) ▸ hm)
    have hdest₁ : fs₁.node dest = some .dir := by
      rw [hcopied.frame _ fun hle => by simpa using hle.length_le, hdest]
    obtain ⟨fs', hloop, hbelow, hframe⟩ := ih hnames
      (fun m hm => by
        rw [FileTree.exists, hsrc]
        exact hthere m (List.mem_cons_of_mem _ hm))
      hdest₁
      (fun m hm r => by
        rw [hcopied.frame _ (hother m hm r)]
        exact hfree m (List.mem_cons_of_mem _ hm) r)
      (hlists.congr hsrc) (hdepth.congr hsrc)
    refine ⟨fs', ?_, ?_, ?_⟩
    · rw [copyEntries, hentry]
      exact hloop
    · intro m hm r
      rcases List.mem_cons.1 hm with rfl | hm
      · have hlater : ∀ m' ∈ names, ¬ dest ++ [m'] <+: dest ++ [m] ++ r := by
          intro m' hm' hle
          have heq : m' = m := entry_unique hle (List.prefix_append _ _)
          exact hn (heq ▸ hm')
        rw [hframe _ hlater, hcopied.below]
      · rw [hbelow m hm, List.append_assoc src, hsrc]
    · intro q hq
      rw [hframe q fun m hm => hq m (List.mem_cons_of_mem _ hm),
        hcopied.frame q (hq n List.mem_cons_self)]

/-- A copy of a directory into a directory without entries, apart from it. Fuel beyond the depth of
the source is enough. -/
theorem copyDirContents_full (henv : Quiet env) {fuel : Nat} (hapart : Apart src dest)
    (hsrc : fs.node src = some .dir) (hdest : fs.node dest = some .dir)
    (hempty : EmptyBelow fs dest) (hlists : Lists env.order fs src) (hdepth : DepthLE fs src k)
    (hfuel : k < fuel) :
    ∃ fs', copyDirContents empty env fuel fs src dest = some (fs', .ok ()) ∧
      DirCopied fs fs' src dest := by
  induction fuel generalizing fs src dest k with
  | zero => exact absurd hfuel (Nat.not_lt_zero k)
  | succ fuel ih =>
    obtain ⟨hnodup, hmem⟩ := hlists src (List.prefix_refl _) hsrc
    have hfree : ∀ n ∈ env.order src, ∀ r, fs.node (dest ++ [n] ++ r) = none := by
      intro n _ r
      rw [List.append_assoc]
      exact hempty _ (by simp)
    obtain ⟨fs', hloop, hbelow, hframe⟩ : ∃ fs', copyEntries empty env
        (copyDirContents empty env fuel) src dest fs (env.order src) = some (fs', .ok ()) ∧
        (∀ n ∈ env.order src, ∀ r,
          fs'.node (dest ++ [n] ++ r) = copied (fs.node (src ++ [n] ++ r))) ∧
        ∀ q, (∀ n ∈ env.order src, ¬ dest ++ [n] <+: q) → fs'.node q = fs.node q := by
      cases k with
      | zero =>
        rw [hlists.eq_nil hsrc hdepth]
        exact ⟨fs, rfl, by simp, fun _ _ => rfl⟩
      | succ k =>
        have hrec : CallCopies env k (copyDirContents empty env fuel) :=
          fun _ _ _ hapart hsrc hdest hempty hlists hdepth =>
            ih hapart hsrc hdest hempty hlists hdepth (Nat.lt_of_succ_lt_succ hfuel)
        exact copyEntries_full henv hrec hnodup (fun n hn => (hmem n).1 hn) hapart hdest hfree
          hlists hdepth
    refine ⟨fs', ?_, ?_, fun q hq => hframe q fun n _ => hq n⟩
    · rw [copyDirContents, henv.readDir, hsrc]
      exact hloop
    · intro r hr
      obtain ⟨n, r, rfl⟩ := List.exists_cons_of_ne_nil hr
      by_cases hn : n ∈ env.order src
      · have hcopied := hbelow n hn r
        rwa [List.append_assoc, List.append_assoc] at hcopied
      · -- an entry that is not listed is in neither directory
        have hout : fs.node (src ++ [n]) = none := by
          have hnot := fun h => hn ((hmem n).2 h)
          simpa [FileTree.exists] using hnot
        have hgone : fs.node (src ++ n :: r) = none := by
          rcases r with - | ⟨m, r⟩
          · exact hout
          · have hbelow' : fs.node (src ++ [n] ++ m :: r) = none :=
              none_below (List.cons_ne_nil m r) (by rw [hout]; simp)
            rwa [List.append_assoc] at hbelow'
        rw [hframe _ ?_, hempty _ (List.cons_ne_nil n r), hgone]
        · rfl
        · intro m hm hle
          have heq : m = n := entry_unique hle (by simp)
          exact hn (heq ▸ hm)

end Copy

end SkegRigging.Fs
