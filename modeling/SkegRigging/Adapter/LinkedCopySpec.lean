import SkegRigging.Adapter.LinkedCopy

/-!
# What the calls of a copy do

One lemma for each call of the operating system that `copy_dir_contents` makes in a file system with
links: what `create_dir_all`, `File::create` and `std::fs::copy` can change, and when.
-/

set_option autoImplicit false

namespace SkegRigging.Volume

open FileTree Fs

variable {d d' : Volume} {p q path : List String} {name : String}

/-! ## Changes -/

@[simp] theorem data_overwrite_self (d : Volume) (n : Nat) (bytes : Bytes) :
    (d.overwrite n bytes).data n = bytes := Function.update_self _ _ _

theorem data_overwrite_of_ne {n m : Nat} {bytes : Bytes} (h : m ≠ n) :
    (d.overwrite n bytes).data m = d.data m := Function.update_of_ne h _ _

theorem tree_create (h : d.tree.Writable p name) :
    (d.create p name h).tree = d.tree.put p name (.inode d.next) h := rfl

theorem data_create_self (h : d.tree.Writable p name) : (d.create p name h).data d.next = [] :=
  Function.update_self _ _ _

theorem data_create_of_ne {n : Nat} (h : d.tree.Writable p name) (hn : n ≠ d.next) :
    (d.create p name h).data n = d.data n := Function.update_of_ne hn _ _

/-- A file after a new one was made is the new one or was there. -/
theorem inode_create (h : d.tree.Writable p name) {n : Nat}
    (hq : (d.create p name h).tree.node q = some (.file (.inode n))) :
    q = p ++ [name] ∧ n = d.next ∨ d.tree.node q = some (.file (.inode n)) ∧ n < d.next := by
  rw [tree_create, node_put] at hq
  split at hq
  · rename_i hself
    simp only [Option.some.injEq, Node.file.injEq, Leaf.inode.injEq] at hq
    exact Or.inl ⟨hself, hq.symm⟩
  · exact Or.inr ⟨hq, d.fresh q n hq⟩

/-- A new file has one path. -/
theorem create_single (h : d.tree.Writable p name) {q' : List String} {n : Nat}
    (hsingle : d.tree.node q = some (.file (.inode n)) →
      d.tree.node q' = some (.file (.inode n)) → q = q')
    (hq : (d.create p name h).tree.node q = some (.file (.inode n)))
    (hq' : (d.create p name h).tree.node q' = some (.file (.inode n))) : q = q' := by
  rcases inode_create h hq with ⟨rfl, hn⟩ | ⟨hold, hlt⟩
  · rcases inode_create h hq' with ⟨rfl, -⟩ | ⟨-, hlt⟩
    · rfl
    · omega
  · rcases inode_create h hq' with ⟨-, hn⟩ | ⟨hold', -⟩
    · omega
    · exact hsingle hold hold'

theorem makeDirs_of_dir (h : d.tree.node q = some .dir) : d.makeDirs q = d := by
  cases d
  simp only [makeDirs, Volume.mk.injEq, and_true]
  exact FileTree.makeDirs_of_dir h

/-! ## Reading -/

theorem metadata_eq {x : Node (Leaf String)} :
    d.metadata p = some x ↔ ∃ q, d.follow p = .ok q ∧ d.tree.node q = some x := by
  unfold metadata
  cases d.follow p with
  | ok q => simp
  | error b => simp

theorem metadata_of {x : Node (Leaf String)} (h : d.follow p = .ok q)
    (hx : d.tree.node q = some x) : d.metadata p = some x := metadata_eq.2 ⟨q, h, hx⟩

theorem inodeAt_eq {n : Nat} :
    d.inodeAt p = some n ↔ ∃ q, d.follow p = .ok q ∧ d.tree.node q = some (.file (.inode n)) := by
  rw [← metadata_eq, inodeAt]
  split
  · rename_i i hi
    simp [hi]
  · rename_i hnone
    constructor
    · intro h
      cases h
    · intro h
      exact absurd h (hnone n)

theorem entryAt_eq {x : Node (Leaf String)} :
    d.entryAt p name = some x ↔
      ∃ q, d.follow p = .ok q ∧ d.tree.node (q ++ [name]) = some x := by
  unfold entryAt
  cases d.follow p with
  | ok q => simp
  | error b => simp

/-- What is no link, below a directory that a path leads to. -/
theorem follow_entry {x : Node (Leaf String)} {r : List String} (h : d.follow p = .ok q)
    (hdir : d.tree.node q = some .dir) (hx : d.tree.node (q ++ r) = some x)
    (hlink : ∀ target, x ≠ .file (.link target)) : d.follow (p ++ r) = .ok (q ++ r) :=
  follow_append h hdir fun _ => follow_below hx hlink

/-- A free name in a directory that a path leads to, and anything below it. -/
theorem follow_free {rest : List String} (h : d.follow p = .ok q)
    (hdir : d.tree.node q = some .dir) (hnone : d.tree.node (q ++ [name]) = none) :
    d.follow (p ++ name :: rest) = .ok (q ++ name :: rest) :=
  follow_append h hdir fun _ => follow_none hnone

/-! ## `create_dir_all` -/

/-- A directory at `q` to which `path` leads: it is there, or the path ends in free names. -/
inductive Place (d : Volume) (path : List String) : List String → Prop
  | there {q : List String} (h : d.follow path = .ok q) (hdir : d.tree.node q = some .dir) :
      Place d path q
  | free {way top : List String} {n : String} {rest : List String} (hpath : path = way ++ n :: rest)
      (h : d.follow way = .ok top) (hdir : d.tree.node top = some .dir)
      (hnone : d.tree.node (top ++ [n]) = none) : Place d path (top ++ n :: rest)

theorem place_spec {rest : List String} (hp : d.metadata p = some .dir)
    (h : d.place p rest = .ok q) : Place d (p ++ rest) q := by
  induction rest generalizing p with
  | nil =>
    obtain ⟨q', hq', hdir⟩ := metadata_eq.1 hp
    rw [place, hq'] at h
    rw [List.append_nil, ← Except.ok.inj h]
    exact .there hq' hdir
  | cons n rest ih =>
    rw [place] at h
    split at h
    · rename_i hnext
      rw [List.append_cons]
      exact ih hnext h
    · obtain ⟨top, htop, hdir⟩ := metadata_eq.1 hp
      rw [htop] at h
      dsimp only at h
      split at h
      · rename_i hnone
        rw [← Except.ok.inj h]
        exact .free rfl htop hdir hnone
      · cases h
      · cases h
      · cases h

theorem place_root (h : d.place [] path = .ok q) : Place d path q := by
  have hroot : d.metadata [] = some .dir := metadata_of follow_nil d.tree.root
  exact place_spec hroot h

/-- The path leads to the place. -/
theorem Place.follow (h : Place d path q) : d.follow path = .ok q := by
  cases h with
  | there hq hdir => exact hq
  | free hpath hway hdir hnone =>
    rw [hpath]
    exact follow_free hway hdir hnone

theorem Place.canMake (h : Place d path q) : d.tree.CanMake q := by
  cases h with
  | there hq hdir => exact canMake_of_dir hdir
  | @free way top n rest hpath hway hdir hnone =>
    intro q' hq'
    rw [List.append_cons] at hq'
    rcases List.prefix_or_prefix_of_prefix hq' (List.prefix_append (top ++ [n]) rest) with hle | hle
    · rw [List.prefix_concat_iff] at hle
      rcases hle with rfl | hle
      · exact Or.inl hnone
      · exact Or.inr (dir_above hle hdir)
    · obtain ⟨s, rfl⟩ := hle
      left
      rw [List.append_assoc]
      exact none_along hnone s

/-- Along a path that leads to something every place is there. -/
theorem Place.dir_of_isSome {s : List String} (h : Place d path q)
    (hsome : (d.metadata (path ++ s)).isSome = true) : d.tree.node q = some .dir := by
  cases h with
  | there hq hdir => exact hdir
  | @free way top n rest hpath hway hdir hnone =>
    obtain ⟨x, hx⟩ := Option.isSome_iff_exists.1 hsome
    obtain ⟨q, hq, hnode⟩ := metadata_eq.1 hx
    rw [hpath, List.append_assoc, List.cons_append, follow_free hway hdir hnone] at hq
    rw [← Except.ok.inj hq, none_along hnone] at hnode
    cases hnode

/-- Only the last name of a path is free when the path above it leads to something. -/
theorem Place.entry (h : Place d (path ++ [name]) q)
    (hsome : (d.metadata path).isSome = true) : d.tree.node q = some .dir ∨
      ∃ top, q = top ++ [name] ∧ d.follow path = .ok top ∧ d.tree.node top = some .dir ∧
        d.tree.node (top ++ [name]) = none := by
  generalize hp : path ++ [name] = whole at h
  cases h with
  | there hq hdir => exact Or.inl hdir
  | @free way top n rest hpath hway hdir hnone =>
    rcases List.eq_nil_or_concat rest with rfl | ⟨rest, m, rfl⟩
    · obtain ⟨rfl, hn⟩ := List.append_inj' (hp.trans hpath) rfl
      rw [List.cons.injEq] at hn
      rw [← hn.1] at hnone ⊢
      exact Or.inr ⟨top, rfl, hway, hdir, hnone⟩
    · rw [hpath, List.concat_eq_append, ← List.cons_append, ← List.append_assoc] at hp
      obtain ⟨rfl, -⟩ := List.append_inj' hp rfl
      have hfree : Place d (way ++ n :: rest) (top ++ n :: rest) := .free rfl hway hdir hnone
      have hthere := hfree.dir_of_isSome (s := []) (by rwa [List.append_nil])
      rw [none_along hnone] at hthere
      cases hthere

/-- Once `create_dir_all` has returned `Ok`, its path leads to a directory. -/
theorem createDirAll_ok {stop : Option (Nat × IoError)}
    (h : createDirAll stop d path = (d', .ok ())) : stop = none ∧ d'.metadata path = some .dir := by
  cases stop with
  | some stopped =>
    rw [createDirAll] at h
    split at h
    · cases h
    · cases h
  | none =>
    refine ⟨rfl, ?_⟩
    rw [createDirAll] at h
    split at h
    · rename_i q hq
      have hplace := place_root hq
      have hgrows := Grows.makeDirs hplace.canMake
      have hself : (d.makeDirs q).tree.node q = some .dir := node_makeDirs_self
      rw [← (Prod.mk.inj h).1]
      apply metadata_of _ hself
      cases hplace with
      | there hfollow hdir =>
        apply hgrows.follow_of_isSome hfollow
        rw [hdir]
        rfl
      | @free way top n rest hpath hway hdir hnone =>
        have hway' : (d.makeDirs (top ++ n :: rest)).follow way = .ok top := by
          apply hgrows.follow_of_isSome hway
          rw [hdir]
          rfl
        rw [hpath]
        apply follow_entry hway' (hgrows.keeps _ _ hdir) hself
        simp
    · cases h

/-- What opening for writing can find: a file, which is emptied, a device, or a free name. -/
inductive Opened (d : Volume) (path : List String) : Volume → Option Nat → Prop
  | file {q : List String} {n : Nat} (h : d.follow path = .ok q)
      (hnode : d.tree.node q = some (.file (.inode n))) : Opened d path (d.overwrite n []) (some n)
  | device : Opened d path d none
  | made {dir : List String} {name : String} (h : d.follow path = .ok (dir ++ [name]))
      (hnone : d.tree.node (dir ++ [name]) = none) (hw : d.tree.Writable dir name) :
      Opened d path (d.create dir name hw) (some d.next)

theorem Opened.grows {n : Option Nat} (h : Opened d path d' n) : Grows d.tree d'.tree := by
  cases h with
  | file hq hnode => exact Grows.refl _
  | device => exact Grows.refl _
  | made hq hnone hw => exact Grows.put hw hnone

@[simp] theorem tree_write (d : Volume) (n : Option Nat) (bytes : Bytes) :
    (d.write n bytes).tree = d.tree := by
  cases n <;> rfl

theorem fileCreate_spec {n : Option Nat} (h : d.fileCreate path = .ok (d', n)) :
    Opened d path d' n := by
  unfold fileCreate at h
  split at h
  · cases h
  · rename_i q hq
    split at h
    · cases h
    · rename_i i hnode
      obtain ⟨rfl, rfl⟩ := Prod.mk.inj (Except.ok.inj h)
      exact .file hq hnode
    · cases h
    · obtain ⟨rfl, rfl⟩ := Prod.mk.inj (Except.ok.inj h)
      exact .device
    · rename_i hnone
      split at h
      · cases h
      · rename_i name hname
        split at h
        · rename_i hw
          obtain ⟨rfl, rfl⟩ := Prod.mk.inj (Except.ok.inj h)
          have hsplit : q = q.dropLast ++ [name] := by
            rw [List.dropLast_append_getLast? name hname]
          exact .made (hsplit ▸ hq) (hsplit ▸ hnone) hw
        · cases h

/-- What a copy of one file can do: nothing, or open its destination and write there a beginning of
what the source then is. -/
theorem copyFile_spec {outcome : CopyOutcome Nat} {src dest : List String}
    {r : Except IoError Unit} (h : copyFile outcome d src dest = (d', r)) :
    d' = d ∨ ∃ i opened n bytes, d.inodeAt src = some i ∧ Opened d dest opened n ∧
      bytes <+: opened.data i ∧ d' = opened.write n bytes := by
  unfold copyFile at h
  split at h
  · exact Or.inl (Prod.mk.inj h).1.symm
  · rename_i i hi
    split at h
    · exact Or.inl (Prod.mk.inj h).1.symm
    · rename_i left e
      split at h
      · exact Or.inl (Prod.mk.inj h).1.symm
      · rename_i opened n hopen
        exact Or.inr ⟨i, opened, n, _, hi, fileCreate_spec hopen, List.take_prefix left _,
          (Prod.mk.inj h).1.symm⟩
    · split at h
      · exact Or.inl (Prod.mk.inj h).1.symm
      · rename_i opened n hopen
        exact Or.inr ⟨i, opened, n, _, hi, fileCreate_spec hopen, List.prefix_refl _,
          (Prod.mk.inj h).1.symm⟩

/-! ## What comes before the copy -/

section Prepare

variable {F S : Type} {E : DiskVamanaIndex F S} {J : SerdeJson} {o : WriteOutcome} {t : Tenant E}

end Prepare

end SkegRigging.Volume
