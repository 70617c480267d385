import Mathlib.Data.List.Dedup
import Mathlib.Data.List.Infix

/-!
# File trees

A file system as the map from paths to what is there. A path is the list of its components, and the
empty path is the root. `FileTree` carries what every such map has: the root is a directory, what is
there has a directory as its parent, and a directory has finitely many entries.

Two operations change a tree: `put` writes a file in a directory and `makeDirs` makes a path and
everything above it a directory. Each of them is described by one equation on nodes, and what both
of them keep (`Extends`) is that nothing disappears or changes its kind.
-/

set_option autoImplicit false

namespace SkegRigging

universe u v

/-- What is at a path: a directory, a file with its content, or anything else, such as a socket. -/
inductive Node (C : Type v)
  | dir
  | file (content : C)
  | special
  deriving DecidableEq, Repr

/-- A file system over the names `N`. -/
structure FileTree (N : Type u) (C : Type v) where
  node : List N → Option (Node C)
  root : node [] = some .dir
  parent : ∀ p n, (node (p ++ [n])).isSome = true → node p = some .dir
  finite : ∀ p, ∃ names : List N, ∀ n, (node (p ++ [n])).isSome = true → n ∈ names

namespace FileTree

variable {N : Type u} {C : Type v} (fs : FileTree N C)

theorem ext_node {fs fs' : FileTree N C} (h : ∀ q, fs.node q = fs'.node q) : fs = fs' := by
  cases fs
  cases fs'
  congr
  exact funext h

/-- The file system that holds only its root. -/
def bare : FileTree N C where
  node
    | [] => some .dir
    | _ :: _ => none
  root := rfl
  parent p n h := by
    cases p with
    | nil => rfl
    | cons m p => simp at h
  finite p := by
    refine ⟨[], ?_⟩
    intro n h
    cases p with
    | nil => simp at h
    | cons m p => simp at h

/-! ## Reading -/

/-- Something is at the path. -/
def «exists» (p : List N) : Bool := (fs.node p).isSome

/-- The content of the file at the path. -/
def content (p : List N) : Option C :=
  match fs.node p with
  | some (.file c) => some c
  | _ => none

variable {fs}

theorem content_eq_some_iff {p : List N} {c : C} :
    fs.content p = some c ↔ fs.node p = some (.file c) := by
  unfold content
  split <;> simp_all

theorem content_congr {fs' : FileTree N C} {p p' : List N} (h : fs.node p = fs'.node p') :
    fs.content p = fs'.content p' := by
  rw [content, content, h]

theorem content_dir {p : List N} (h : fs.node p = some .dir) : fs.content p = none := by
  rw [content, h]

/-- What is above anything is a directory. -/
theorem dir_of_below {p r : List N} (hr : r ≠ []) (h : (fs.node (p ++ r)).isSome = true) :
    fs.node p = some .dir := by
  induction r using List.reverseRecOn with
  | nil => exact absurd rfl hr
  | append_singleton r n ih =>
    rw [← List.append_assoc] at h
    have hdir := fs.parent _ _ h
    rcases List.eq_nil_or_concat r with rfl | ⟨r, m, rfl⟩
    · rwa [List.append_nil] at hdir
    · exact ih (by simp) (by rw [hdir]; rfl)

/-- A path above a directory is a directory. -/
theorem dir_above {p q : List N} (hpq : p <+: q) (h : fs.node q = some .dir) :
    fs.node p = some .dir := by
  obtain ⟨r, rfl⟩ := hpq
  rcases r with - | ⟨n, r⟩
  · rwa [List.append_nil] at h
  · exact dir_of_below (List.cons_ne_nil n r) (by rw [h]; rfl)

/-- Nothing is below what is not a directory. -/
theorem none_below {p r : List N} (hr : r ≠ []) (h : fs.node p ≠ some .dir) :
    fs.node (p ++ r) = none := by
  by_contra hne
  exact h (dir_of_below hr (Option.isSome_iff_ne_none.2 hne))

/-! ## Paths -/

/-- Neither of the two paths is the other one or above it. -/
def Apart (p q : List N) : Prop := ¬ p <+: q ∧ ¬ q <+: p

instance [DecidableEq N] (p q : List N) : Decidable (Apart p q) :=
  inferInstanceAs (Decidable (¬ p <+: q ∧ ¬ q <+: p))

theorem Apart.symm {p q : List N} (h : Apart p q) : Apart q p := ⟨h.2, h.1⟩

/-- Paths below paths that are apart. -/
theorem Apart.append {p q : List N} (h : Apart p q) (r s : List N) : Apart (p ++ r) (q ++ s) := by
  refine ⟨?_, ?_⟩
  · intro hpre
    have hp : p <+: q ++ s := (List.prefix_append p r).trans hpre
    rcases List.prefix_or_prefix_of_prefix hp (List.prefix_append q s) with hpq | hqp
    · exact h.1 hpq
    · exact h.2 hqp
  · intro hpre
    have hq : q <+: p ++ r := (List.prefix_append q s).trans hpre
    rcases List.prefix_or_prefix_of_prefix hq (List.prefix_append p r) with hqp | hpq
    · exact h.2 hqp
    · exact h.1 hpq

theorem Apart.ne {p q : List N} (h : Apart p q) : p ≠ q := by
  rintro rfl
  exact h.1 (List.prefix_refl _)

/-- A path lies below one entry of a directory only. -/
theorem entry_unique {p q : List N} {n m : N} (hn : p ++ [n] <+: q) (hm : p ++ [m] <+: q) :
    n = m := by
  have hlen : (p ++ [n]).length = (p ++ [m]).length := by simp
  have heq := (List.prefix_of_prefix_length_le hn hm hlen.le).eq_of_length hlen
  simpa using heq

/-- Entries of one directory are apart. -/
theorem apart_of_ne {p : List N} {n m : N} (h : n ≠ m) : Apart (p ++ [n]) (p ++ [m]) :=
  ⟨fun hle => h (entry_unique hle (List.prefix_refl _)),
    fun hle => h (entry_unique (List.prefix_refl _) hle)⟩

/-! ## What can be made a directory -/

/-- Nothing but directories is at the path or above it. -/
def CanMake (fs : FileTree N C) (p : List N) : Prop :=
  ∀ q, q <+: p → fs.node q = none ∨ fs.node q = some .dir

instance (fs : FileTree N C) (p : List N) : Decidable (fs.CanMake p) :=
  decidable_of_iff (p.inits.all (fun q =>
      match fs.node q with
      | none | some .dir => true
      | some (.file _) | some .special => false) = true) <| by
    rw [List.all_eq_true]
    refine forall_congr' fun q => ?_
    rw [List.mem_inits]
    refine imp_congr_right fun _ => ?_
    split <;> simp_all

theorem canMake_of_dir {p : List N} (h : fs.node p = some .dir) : fs.CanMake p :=
  fun _ hq => Or.inr (dir_above hq h)

/-- An entry of a directory can be made a directory when it is not there. -/
theorem canMake_append {p : List N} {n : N} (hdir : fs.node p = some .dir)
    (hnone : fs.node (p ++ [n]) = none ∨ fs.node (p ++ [n]) = some .dir) :
    fs.CanMake (p ++ [n]) := by
  intro q hq
  rw [List.prefix_concat_iff] at hq
  rcases hq with rfl | hq
  · exact hnone
  · exact Or.inr (dir_above hq hdir)

/-! ## Trees that extend a tree -/

/-- Whatever was there is still there and of the same kind. -/
structure Extends (fs fs' : FileTree N C) : Prop where
  dir : ∀ q, fs.node q = some .dir → fs'.node q = some .dir
  file : ∀ q c, fs.node q = some (.file c) → ∃ c', fs'.node q = some (.file c')
  special : ∀ q, fs.node q = some .special → fs'.node q = some .special

theorem Extends.refl (fs : FileTree N C) : Extends fs fs :=
  ⟨fun _ h => h, fun _ c h => ⟨c, h⟩, fun _ h => h⟩

theorem Extends.trans {fs₁ fs₂ fs₃ : FileTree N C} (h : Extends fs₁ fs₂) (h' : Extends fs₂ fs₃) :
    Extends fs₁ fs₃ := by
  refine ⟨fun q hq => h'.dir q (h.dir q hq), ?_, fun q hq => h'.special q (h.special q hq)⟩
  intro q c hq
  obtain ⟨c', hc'⟩ := h.file q c hq
  exact h'.file q c' hc'

/-- What is there stays there. -/
theorem Extends.exists {fs fs' : FileTree N C} (h : Extends fs fs') {q : List N}
    (hq : fs.exists q = true) : fs'.exists q = true := by
  obtain ⟨node, hnode⟩ := Option.isSome_iff_exists.1 hq
  cases node with
  | dir => rw [FileTree.exists, h.dir q hnode]; rfl
  | file c =>
    obtain ⟨c', hc'⟩ := h.file q c hnode
    rw [FileTree.exists, hc']
    rfl
  | special => rw [FileTree.exists, h.special q hnode]; rfl

/-! ## Listings and depth -/

/-- `order` lists the entries of every directory at or below `p`, each once. -/
def Lists (order : List N → List N) (fs : FileTree N C) (p : List N) : Prop :=
  ∀ q, p <+: q → fs.node q = some .dir →
    (order q).Nodup ∧ ∀ n, n ∈ order q ↔ fs.exists (q ++ [n]) = true

/-- `order` lists at least the entries of every directory at or below `p`: an enumeration may also
show what is created while it goes on. -/
def Covers (order : List N → List N) (fs : FileTree N C) (p : List N) : Prop :=
  ∀ q, p <+: q → fs.node q = some .dir →
    (order q).Nodup ∧ ∀ n, fs.exists (q ++ [n]) = true → n ∈ order q

theorem Lists.covers {order : List N → List N} {p : List N} (h : Lists order fs p) :
    Covers order fs p :=
  fun q hq hdir => ⟨(h q hq hdir).1, fun n => ((h q hq hdir).2 n).2⟩

/-- Nothing is more than `k` levels below `p`. -/
def DepthLE (fs : FileTree N C) (p : List N) (k : Nat) : Prop :=
  ∀ r, fs.exists (p ++ r) = true → r.length ≤ k

section Subtree

variable {fs' : FileTree N C} {order : List N → List N} {p : List N}

theorem Lists.below (h : Lists order fs p) (r : List N) : Lists order fs (p ++ r) :=
  fun q hq => h q ((List.prefix_append p r).trans hq)

/-- A listing of a directory depends on what is there and which of it are directories. -/
theorem Lists.of_dirs (h : Lists order fs p)
    (hdir : ∀ r, fs'.node (p ++ r) = some .dir → fs.node (p ++ r) = some .dir)
    (hexists : ∀ r, fs'.exists (p ++ r) = fs.exists (p ++ r)) : Lists order fs' p := by
  rintro q ⟨r, rfl⟩ hq
  obtain ⟨hnodup, hmem⟩ := h _ (List.prefix_append p r) (hdir r hq)
  refine ⟨hnodup, ?_⟩
  intro n
  rw [hmem n, List.append_assoc, hexists]

theorem Lists.congr (h : Lists order fs p) (hsame : ∀ r, fs'.node (p ++ r) = fs.node (p ++ r)) :
    Lists order fs' p := by
  apply h.of_dirs
  · intro r hr
    rwa [hsame] at hr
  · intro r
    rw [FileTree.exists, FileTree.exists, hsame]

theorem DepthLE.below {k : Nat} (h : DepthLE fs p (k + 1)) (n : N) : DepthLE fs (p ++ [n]) k := by
  intro r hr
  rw [List.append_assoc] at hr
  have hlen := h ([n] ++ r) hr
  simpa using hlen

theorem DepthLE.of_exists {p' : List N} {k : Nat} (h : DepthLE fs p k)
    (hexists : ∀ r, fs'.exists (p' ++ r) = true → fs.exists (p ++ r) = true) : DepthLE fs' p' k :=
  fun r hr => h r (hexists r hr)

theorem DepthLE.congr {k : Nat} (h : DepthLE fs p k)
    (hsame : ∀ r, fs'.node (p ++ r) = fs.node (p ++ r)) : DepthLE fs' p k := by
  apply h.of_exists
  intro r hr
  rwa [FileTree.exists, hsame] at hr

/-- A directory of depth zero has no entries. -/
theorem Lists.eq_nil (h : Lists order fs p) (hdir : fs.node p = some .dir)
    (hdepth : DepthLE fs p 0) : order p = [] := by
  apply List.eq_nil_iff_forall_not_mem.2
  intro n hn
  have hlen := hdepth [n] (((h p (List.prefix_refl p) hdir).2 n).1 hn)
  simp at hlen

end Subtree

/-! ## Writing a file -/

/-- The file `n` of the directory `p` can be opened for writing. -/
structure Writable (fs : FileTree N C) (p : List N) (n : N) : Prop where
  dir : fs.node p = some .dir
  notDir : fs.node (p ++ [n]) ≠ some .dir
  notSpecial : fs.node (p ++ [n]) ≠ some .special

instance (fs : FileTree N C) (p : List N) (n : N) : Decidable (fs.Writable p n) :=
  match hp : fs.node p, hn : fs.node (p ++ [n]) with
  | some .dir, none => isTrue ⟨hp, by simp [hn], by simp [hn]⟩
  | some .dir, some (.file _) => isTrue ⟨hp, by simp [hn], by simp [hn]⟩
  | some .dir, some .dir => isFalse fun h => h.notDir hn
  | some .dir, some .special => isFalse fun h => h.notSpecial hn
  | some (.file _), _ => isFalse fun h => absurd (hp.symm.trans h.dir) (by simp)
  | some .special, _ => isFalse fun h => absurd (hp.symm.trans h.dir) (by simp)
  | none, _ => isFalse fun h => absurd (hp.symm.trans h.dir) (by simp)

/-- A file can be written in a directory where its name is free. -/
theorem writable_of_none {p : List N} {n : N} (hdir : fs.node p = some .dir)
    (hnone : fs.node (p ++ [n]) = none) : fs.Writable p n := by
  refine ⟨hdir, ?_, ?_⟩
  · rw [hnone]
    simp
  · rw [hnone]
    simp

/-- A file can be written where there is one. -/
theorem writable_of_file {p : List N} {n : N} {c : C}
    (hfile : fs.content (p ++ [n]) = some c) : fs.Writable p n := by
  have hnode := content_eq_some_iff.1 hfile
  refine ⟨fs.parent _ _ (by rw [hnode]; rfl), ?_, ?_⟩
  · rw [hnode]
    simp
  · rw [hnode]
    simp

variable [DecidableEq N]

/-- Write the file `n` of the directory `p`. -/
def put (fs : FileTree N C) (p : List N) (n : N) (c : C) (h : fs.Writable p n) : FileTree N C where
  node q := if q = p ++ [n] then some (.file c) else fs.node q
  root := by simpa using fs.root
  parent q m hq := by
    have hfile : q ≠ p ++ [n] ∨ (fs.node (q ++ [m])).isSome = false := by
      by_contra hboth
      simp only [not_or, not_not, Bool.not_eq_false] at hboth
      exact h.notDir (hboth.1 ▸ fs.parent _ _ hboth.2)
    by_cases hnew : q ++ [m] = p ++ [n]
    · obtain ⟨rfl, -⟩ := List.append_inj' hnew rfl
      rw [if_neg (by simp)]
      exact h.dir
    · rw [if_neg hnew] at hq
      have hne : q ≠ p ++ [n] := by
        rcases hfile with hne | hnone
        · exact hne
        · rw [hq] at hnone
          simp at hnone
      rw [if_neg hne]
      exact fs.parent _ _ hq
  finite q := by
    obtain ⟨names, hnames⟩ := fs.finite q
    refine ⟨n :: names, ?_⟩
    intro m hm
    by_cases hnew : q ++ [m] = p ++ [n]
    · have hlast : m = n := by simpa using (List.append_inj' hnew rfl).2
      exact hlast ▸ List.mem_cons_self
    · rw [if_neg hnew] at hm
      exact List.mem_cons_of_mem _ (hnames m hm)

section Put

variable {p : List N} {n : N} {c : C} {h : fs.Writable p n}

theorem node_put (q : List N) :
    (fs.put p n c h).node q = if q = p ++ [n] then some (.file c) else fs.node q := rfl

theorem node_put_self : (fs.put p n c h).node (p ++ [n]) = some (.file c) := if_pos rfl

theorem node_put_of_ne {q : List N} (hq : q ≠ p ++ [n]) : (fs.put p n c h).node q = fs.node q :=
  if_neg hq

theorem content_put_self : (fs.put p n c h).content (p ++ [n]) = some c :=
  content_eq_some_iff.2 node_put_self

theorem content_put_of_ne {q : List N} (hq : q ≠ p ++ [n]) :
    (fs.put p n c h).content q = fs.content q :=
  content_congr (node_put_of_ne hq)

/-- A write makes no directory. -/
theorem dir_of_put {q : List N} (hq : (fs.put p n c h).node q = some .dir) :
    fs.node q = some .dir := by
  rw [node_put] at hq
  split at hq
  · simp at hq
  · exact hq

/-- Where there was a file, nothing new appears. -/
theorem exists_put_of_file {c' : C} (hfile : fs.content (p ++ [n]) = some c') (q : List N) :
    (fs.put p n c h).exists q = fs.exists q := by
  rw [FileTree.exists, FileTree.exists, node_put]
  split
  · rename_i hq
    rw [hq, content_eq_some_iff.1 hfile]
    rfl
  · rfl

/-- A file that was written can be written again. -/
theorem Writable.put {c : C} (h : fs.Writable p n) : (fs.put p n c h).Writable p n := by
  have hdir : p ≠ p ++ [n] := by simp
  refine ⟨?_, ?_, ?_⟩
  · rw [node_put_of_ne hdir]
    exact h.dir
  · rw [node_put_self]
    simp
  · rw [node_put_self]
    simp

end Put

/-! ## Making directories -/

/-- Make `p` and everything above it a directory. -/
def makeDirs (fs : FileTree N C) (p : List N) : FileTree N C where
  node q := if q <+: p then some .dir else fs.node q
  root := if_pos (List.nil_prefix)
  parent q m hq := by
    by_cases hpre : q <+: p
    · exact if_pos hpre
    · have hbelow : ¬ q ++ [m] <+: p := fun h => hpre ((List.prefix_append q [m]).trans h)
      rw [if_neg hbelow] at hq
      rw [if_neg hpre]
      exact fs.parent _ _ hq
  finite q := by
    obtain ⟨names, hnames⟩ := fs.finite q
    refine ⟨p ++ names, ?_⟩
    intro m hm
    by_cases hpre : q ++ [m] <+: p
    · exact List.mem_append_left _ (hpre.subset (by simp))
    · rw [if_neg hpre] at hm
      exact List.mem_append_right _ (hnames m hm)

section MakeDirs

variable {p q : List N}

theorem node_makeDirs (q : List N) :
    (fs.makeDirs p).node q = if q <+: p then some .dir else fs.node q := rfl

theorem node_makeDirs_self : (fs.makeDirs p).node p = some .dir := if_pos (List.prefix_refl p)

theorem node_makeDirs_of_not_above (hq : ¬ q <+: p) : (fs.makeDirs p).node q = fs.node q :=
  if_neg hq

/-- Nothing below a path changes when the path, or one above it, is made a directory. -/
theorem node_makeDirs_below {r : List N} (hq : q <+: p) (hr : r ≠ []) :
    (fs.makeDirs q).node (p ++ r) = fs.node (p ++ r) := by
  apply node_makeDirs_of_not_above
  intro hle
  have hlen := (hle.trans hq).length_le
  have hpos := List.length_pos_of_ne_nil hr
  rw [List.length_append] at hlen
  omega

/-- Making directories that are there changes nothing. -/
theorem makeDirs_of_dir (h : fs.node p = some .dir) : fs.makeDirs p = fs := by
  apply ext_node
  intro q
  rw [node_makeDirs]
  split
  · rename_i hpre
    exact (dir_above hpre h).symm
  · rfl

end MakeDirs

/-! ## Both operations extend the tree -/

theorem extends_put {p : List N} {n : N} (c : C) (h : fs.Writable p n) :
    Extends fs (fs.put p n c h) := by
  refine ⟨?_, ?_, ?_⟩
  · intro q hq
    have hne : q ≠ p ++ [n] := fun heq => h.notDir (heq ▸ hq)
    rw [node_put_of_ne hne]
    exact hq
  · intro q c' hq
    rw [node_put]
    split
    · exact ⟨c, rfl⟩
    · exact ⟨c', hq⟩
  · intro q hq
    have hne : q ≠ p ++ [n] := fun heq => h.notSpecial (heq ▸ hq)
    rw [node_put_of_ne hne]
    exact hq

theorem extends_makeDirs {p : List N} (h : fs.CanMake p) : Extends fs (fs.makeDirs p) := by
  have hkeep : ∀ q o, fs.node q = some o → o ≠ .dir → (fs.makeDirs p).node q = some o := by
    intro q o hq hdir
    apply (node_makeDirs_of_not_above ?_).trans hq
    intro hpre
    rcases h q hpre with hnone | hsome
    · rw [hnone] at hq
      simp at hq
    · rw [hsome] at hq
      exact hdir (Option.some.inj hq).symm
  refine ⟨?_, ?_, ?_⟩
  · intro q hq
    rw [node_makeDirs]
    split
    · rfl
    · exact hq
  · exact fun q c hq => ⟨c, hkeep q _ hq (by simp)⟩
  · exact fun q hq => hkeep q _ hq (by simp)

/-- Every directory can be listed. -/
theorem exists_lists (fs : FileTree N C) (p : List N) : ∃ order, Lists order fs p := by
  choose names hnames using fs.finite
  refine ⟨fun q => ((names q).filter fun n => fs.exists (q ++ [n])).dedup, ?_⟩
  intro q _ _
  refine ⟨List.nodup_dedup _, ?_⟩
  intro n
  rw [List.mem_dedup, List.mem_filter]
  exact ⟨fun h => h.2, fun h => ⟨hnames q n h, h⟩⟩

/-! ## The files below a directory -/

omit [DecidableEq N]

/-- The files at or below `p`, each once: the path relative to `p` and the content. -/
structure ListsFiles (fs : FileTree N C) (p : List N) (files : List (List N × C)) : Prop where
  nodup : files.Nodup
  mem : ∀ r c, (r, c) ∈ files ↔ fs.node (p ++ r) = some (.file c)

/-- The files at or below the entries `names` of `p`. -/
structure ListsBelow (fs : FileTree N C) (p names : List N) (files : List (List N × C)) :
    Prop where
  nodup : files.Nodup
  mem : ∀ r c, (r, c) ∈ files ↔ ∃ n ∈ names, ∃ s, r = n :: s ∧
    fs.node (p ++ n :: s) = some (.file c)

section Files

variable {fs' : FileTree N C} {p p' names : List N} {n : N} {files files' : List (List N × C)}

/-- Directories with the same files have the same lists, up to their order. -/
theorem ListsFiles.perm (h : ListsFiles fs p files) (h' : ListsFiles fs' p' files')
    (hsame : ∀ r c, fs'.node (p' ++ r) = some (.file c) ↔ fs.node (p ++ r) = some (.file c)) :
    files'.Perm files := by
  rw [List.perm_ext_iff_of_nodup h'.nodup h.nodup]
  rintro ⟨r, c⟩
  rw [h.mem, h'.mem, hsame]

theorem listsFiles_file {c : C} (h : fs.node p = some (.file c)) : ListsFiles fs p [([], c)] := by
  refine ⟨List.nodup_singleton _, fun r c' => ?_⟩
  rw [List.mem_singleton, Prod.mk.injEq]
  constructor
  · rintro ⟨rfl, rfl⟩
    rw [List.append_nil, h]
  · intro hfile
    by_cases hr : r = []
    · rw [hr, List.append_nil, h, Option.some.injEq, Node.file.injEq] at hfile
      exact ⟨hr, hfile.symm⟩
    · rw [none_below hr (by rw [h]; simp)] at hfile
      cases hfile

/-- Where there is neither a directory nor a file, there are no files. -/
theorem listsFiles_nil (hdir : fs.node p ≠ some .dir) (hfile : ∀ c, fs.node p ≠ some (.file c)) :
    ListsFiles fs p [] := by
  refine ⟨List.nodup_nil, fun r c => iff_of_false List.not_mem_nil ?_⟩
  by_cases hr : r = []
  · rw [hr, List.append_nil]
    exact hfile c
  · rw [none_below hr hdir]
    simp

theorem listsBelow_nil (fs : FileTree N C) (p : List N) : ListsBelow fs p [] [] :=
  ⟨List.nodup_nil, fun r c => by simp⟩

/-- The files below one more entry. -/
theorem ListsBelow.cons (h : ListsBelow fs p names files') (hn : n ∉ names)
    (hentry : ListsFiles fs (p ++ [n]) files) :
    ListsBelow fs p (n :: names) (files.map (fun f => (n :: f.1, f.2)) ++ files') := by
  have hmem : ∀ r c, (r, c) ∈ files.map (fun f => (n :: f.1, f.2)) ↔
      ∃ s, r = n :: s ∧ fs.node (p ++ n :: s) = some (.file c) := by
    intro r c
    rw [List.mem_map]
    constructor
    · rintro ⟨⟨s, c'⟩, hs, heq⟩
      rw [Prod.mk.injEq] at heq
      obtain ⟨rfl, rfl⟩ := heq
      rw [hentry.mem, List.append_assoc] at hs
      exact ⟨s, rfl, hs⟩
    · rintro ⟨s, rfl, hs⟩
      refine ⟨(s, c), ?_, rfl⟩
      rw [hentry.mem, List.append_assoc]
      exact hs
  constructor
  · rw [List.nodup_append]
    refine ⟨?_, h.nodup, ?_⟩
    · apply hentry.nodup.map
      rintro ⟨s, c⟩ ⟨s', c'⟩ heq
      simpa using heq
    · rintro ⟨r, c⟩ hr f hf rfl
      obtain ⟨s, rfl, -⟩ := (hmem r c).1 hr
      obtain ⟨m, hm, s', heq, -⟩ := (h.mem _ _).1 hf
      rw [List.cons.injEq] at heq
      exact hn (heq.1 ▸ hm)
  · intro r c
    rw [List.mem_append, hmem, h.mem]
    constructor
    · rintro (⟨s, hs⟩ | ⟨m, hm, s, hs⟩)
      · exact ⟨n, List.mem_cons_self, s, hs⟩
      · exact ⟨m, List.mem_cons_of_mem _ hm, s, hs⟩
    · rintro ⟨m, hm, s, hs⟩
      rcases List.mem_cons.1 hm with rfl | hm
      · exact Or.inl ⟨s, hs⟩
      · exact Or.inr ⟨m, hm, s, hs⟩

/-- The files below a directory are those below its entries. -/
theorem ListsBelow.listsFiles (h : ListsBelow fs p names files) (hdir : fs.node p = some .dir)
    (hnames : ∀ n, fs.exists (p ++ [n]) = true → n ∈ names) : ListsFiles fs p files := by
  refine ⟨h.nodup, fun r c => ?_⟩
  rw [h.mem]
  constructor
  · rintro ⟨n, -, s, rfl, hs⟩
    exact hs
  · intro hfile
    cases r with
    | nil =>
      rw [List.append_nil, hdir] at hfile
      cases hfile
    | cons n s =>
      refine ⟨n, hnames n ?_, s, rfl, hfile⟩
      have hbelow : fs.exists (p ++ [n] ++ s) = true := by
        rw [List.append_assoc, FileTree.exists]
        exact Option.isSome_iff_exists.2 ⟨_, hfile⟩
      by_contra hgone
      rw [FileTree.exists, Option.not_isSome_iff_eq_none] at hgone
      rw [FileTree.exists] at hbelow
      by_cases hs : s = []
      · rw [hs, List.append_nil, hgone] at hbelow
        exact Bool.false_ne_true hbelow
      · rw [none_below hs (by rw [hgone]; simp)] at hbelow
        exact Bool.false_ne_true hbelow

end Files

end FileTree

end SkegRigging
