import SkegRigging.Library.FileTree

/-!
# File trees with links

A leaf of the tree is an inode, which several paths may share, or a symbolic link, which stands for
the path it names. `follow` is what becomes of a path on the way through links: the place where it
leads, whether something is there or not. A place below a directory that is not there is the place
where something new would be made.

A tree may grow (`Grows`): entries appear, none of them a link, and what is there stays. A path that
leads somewhere in the grown tree leads to the same place in the old one (`Grows.follow`), so one
look at the old tree tells where anything can ever be written.
-/

set_option autoImplicit false

namespace SkegRigging

universe u

/-- A leaf of a tree: a file by the number of its inode, or a symbolic link to a path. -/
inductive Leaf (N : Type u)
  | inode (n : Nat)
  | link (target : List N)
  deriving DecidableEq, Repr

/-- Why a path leads nowhere. -/
inductive Blocked
  | notDir
  | tooManyLinks
  deriving DecidableEq, Repr

namespace FileTree

variable {N : Type u} {tree old new : FileTree N (Leaf N)}

/-! ## Following a path -/

/-- Go along a path from the directory `top`; `jump` follows the rest after a link. -/
def steps (tree : FileTree N (Leaf N)) (jump : List N → Except Blocked (List N)) :
    List N → List N → Except Blocked (List N)
  | top, [] => .ok top
  | top, n :: rest =>
    match tree.node (top ++ [n]) with
    | some .dir => steps tree jump (top ++ [n]) rest
    | some (.file (.link target)) => jump (target ++ rest)
    | some (.file (.inode _)) | some .special =>
      match rest with
      | [] => .ok (top ++ [n])
      | _ :: _ => .error .notDir
    | none => .ok (top ++ n :: rest)

/-- The place where a path leads from the directory `top`, through at most `k` links. -/
def follow (tree : FileTree N (Leaf N)) : Nat → List N → List N → Except Blocked (List N)
  | 0 => steps tree fun _ => .error .tooManyLinks
  | k + 1 => steps tree (follow tree k [])

section Steps

variable {k : Nat} {top p q r rest : List N} {n : N}

@[simp] theorem follow_nil : tree.follow k top [] = .ok top := by
  cases k <;> rfl

theorem follow_dir (h : tree.node (top ++ [n]) = some .dir) :
    tree.follow k top (n :: rest) = tree.follow k (top ++ [n]) rest := by
  cases k <;> simp only [follow, steps, h]

theorem follow_link {target : List N} (h : tree.node (top ++ [n]) = some (.file (.link target))) :
    tree.follow (k + 1) top (n :: rest) = tree.follow k [] (target ++ rest) := by
  simp only [follow, steps, h]

theorem follow_link_zero {target : List N}
    (h : tree.node (top ++ [n]) = some (.file (.link target))) :
    tree.follow 0 top (n :: rest) = .error .tooManyLinks := by
  simp only [follow, steps, h]

theorem follow_none (h : tree.node (top ++ [n]) = none) :
    tree.follow k top (n :: rest) = .ok (top ++ n :: rest) := by
  cases k <;> simp only [follow, steps, h]

/-- Nothing is along a path whose first name is not there. -/
theorem none_along (h : tree.node (top ++ [n]) = none) (rest : List N) :
    tree.node (top ++ n :: rest) = none := by
  cases rest with
  | nil => exact h
  | cons m rest =>
    rw [List.append_cons]
    apply none_below (List.cons_ne_nil m rest)
    rw [h]
    simp

/-- What is neither a directory nor a link ends a path. -/
structure Ends (x : Node (Leaf N)) : Prop where
  notDir : x ≠ .dir
  notLink : ∀ target, x ≠ .file (.link target)

theorem follow_end {x : Node (Leaf N)} (h : tree.node (top ++ [n]) = some x) (hx : Ends x) :
    tree.follow k top (n :: rest) =
      match rest with
      | [] => .ok (top ++ [n])
      | _ :: _ => .error .notDir := by
  cases x with
  | dir => exact absurd rfl hx.notDir
  | special => cases k <;> simp only [follow, steps, h]
  | file leaf =>
    cases leaf with
    | link target => exact absurd rfl (hx.notLink target)
    | inode i => cases k <;> simp only [follow, steps, h]

/-- The first step of a path. -/
theorem follow_first (tree : FileTree N (Leaf N)) (top : List N) (n : N) :
    tree.node (top ++ [n]) = some .dir ∨
      (∃ target, tree.node (top ++ [n]) = some (.file (.link target))) ∨
      (∃ x, tree.node (top ++ [n]) = some x ∧ Ends x) ∨ tree.node (top ++ [n]) = none := by
  cases h : tree.node (top ++ [n]) with
  | none => exact Or.inr (Or.inr (Or.inr rfl))
  | some x =>
    cases x with
    | dir => exact Or.inl rfl
    | special => exact Or.inr (Or.inr (Or.inl ⟨_, rfl, by simp, by simp⟩))
    | file leaf =>
      cases leaf with
      | link target => exact Or.inr (Or.inl ⟨target, rfl⟩)
      | inode i => exact Or.inr (Or.inr (Or.inl ⟨_, rfl, by simp, by simp⟩))

/-- Along a path: one case for each kind of first step. -/
theorem follow_induction (tree : FileTree N (Leaf N)) {motive : Nat → List N → List N → Prop}
    (nil : ∀ k top, motive k top [])
    (dir : ∀ k top n rest, tree.node (top ++ [n]) = some .dir → motive k (top ++ [n]) rest →
      motive k top (n :: rest))
    (link : ∀ k top n rest target, tree.node (top ++ [n]) = some (.file (.link target)) →
      motive k [] (target ++ rest) → motive (k + 1) top (n :: rest))
    (stuck : ∀ top n rest target, tree.node (top ++ [n]) = some (.file (.link target)) →
      motive 0 top (n :: rest))
    (ends : ∀ k top n rest x, tree.node (top ++ [n]) = some x → Ends x → motive k top (n :: rest))
    (none : ∀ k top n rest, tree.node (top ++ [n]) = none → motive k top (n :: rest))
    (k : Nat) (top p : List N) : motive k top p := by
  induction k generalizing top p with
  | zero =>
    induction p generalizing top with
    | nil => exact nil 0 top
    | cons n rest ih =>
      rcases follow_first tree top n with h | ⟨target, h⟩ | ⟨x, h, hx⟩ | h
      · exact dir 0 top n rest h (ih _)
      · exact stuck top n rest target h
      · exact ends 0 top n rest x h hx
      · exact none 0 top n rest h
  | succ k ihk =>
    induction p generalizing top with
    | nil => exact nil _ top
    | cons n rest ih =>
      rcases follow_first tree top n with h | ⟨target, h⟩ | ⟨x, h, hx⟩ | h
      · exact dir _ top n rest h (ih _)
      · exact link k top n rest target h (ihk _ _)
      · exact ends _ top n rest x h hx
      · exact none _ top n rest h

/-- Where there are no links a path leads to itself. -/
theorem follow_of_noLinks (hno : ∀ s target, tree.node (top ++ s) ≠ some (.file (.link target)))
    (h : tree.follow k top p = .ok q) : q = top ++ p := by
  induction p generalizing top with
  | nil =>
    rw [follow_nil, Except.ok.injEq] at h
    rw [← h, List.append_nil]
  | cons n rest ih =>
    rcases follow_first tree top n with hdir | ⟨target, hlink⟩ | ⟨x, hx, hend⟩ | hnone
    · rw [follow_dir hdir] at h
      rw [ih (fun s target => by rw [List.append_assoc]; exact hno _ target) h]
      simp
    · exact absurd hlink (hno [n] target)
    · rw [follow_end hx hend] at h
      cases rest with
      | nil => exact (Except.ok.inj h).symm
      | cons m rest => cases h
    · rw [follow_none hnone, Except.ok.injEq] at h
      exact h.symm

/-- Below a directory, what is no link is reached by its own names. -/
theorem follow_below {x : Node (Leaf N)} (hx : tree.node (q ++ r) = some x)
    (hlink : ∀ target, x ≠ .file (.link target)) : tree.follow k q r = .ok (q ++ r) := by
  induction r generalizing q with
  | nil => simp
  | cons n rest ih =>
    have hassoc : q ++ n :: rest = q ++ [n] ++ rest := by simp
    rw [hassoc] at hx ⊢
    cases rest with
    | nil =>
      rw [List.append_nil] at hx ⊢
      by_cases hdir : x = .dir
      · rw [hdir] at hx
        rw [follow_dir hx, follow_nil]
      · rw [follow_end hx ⟨hdir, hlink⟩]
    | cons m rest =>
      have hdir := dir_of_below (List.cons_ne_nil m rest) (by rw [hx]; rfl)
      rw [follow_dir hdir, ih hx]

/-- A path goes on from the directory where its beginning leads. -/
theorem follow_append {q' : List N} (h : tree.follow k top p = .ok q)
    (hdir : tree.node q = some .dir) (hr : ∀ k, tree.follow k q r = .ok q') :
    tree.follow k top (p ++ r) = .ok q' := by
  induction k, top, p using follow_induction tree with
  | nil k top =>
    rw [follow_nil, Except.ok.injEq] at h
    rw [List.nil_append, h]
    exact hr k
  | dir k top n rest hnode ih =>
    rw [follow_dir hnode] at h
    rw [List.cons_append, follow_dir hnode]
    exact ih h
  | link k top n rest target hnode ih =>
    rw [follow_link hnode] at h
    rw [List.cons_append, follow_link hnode, ← List.append_assoc]
    exact ih h
  | stuck top n rest target hnode =>
    rw [follow_link_zero hnode] at h
    cases h
  | ends k top n rest y hnode hend =>
    rw [follow_end hnode hend] at h
    cases rest with
    | nil =>
      rw [← Except.ok.inj h, hnode, Option.some.injEq] at hdir
      exact absurd hdir hend.notDir
    | cons m rest => cases h
  | none k top n rest hnode =>
    rw [follow_none hnode, Except.ok.injEq] at h
    rw [← h, none_along hnode rest] at hdir
    cases hdir

end Steps

/-! ## Trees that grow -/

/-- What is in `old` is in `new`, and what is new is no link. -/
structure Grows (old new : FileTree N (Leaf N)) : Prop where
  keeps : ∀ q x, old.node q = some x → new.node q = some x
  links : ∀ q target, new.node q = some (.file (.link target)) →
    old.node q = some (.file (.link target))

namespace Grows

variable {k : Nat} {top p q : List N}

theorem refl (tree : FileTree N (Leaf N)) : Grows tree tree := ⟨fun _ _ h => h, fun _ _ h => h⟩

theorem trans {mid : FileTree N (Leaf N)} (h : Grows old mid) (h' : Grows mid new) :
    Grows old new :=
  ⟨fun q x hq => h'.keeps q x (h.keeps q x hq),
    fun q target hq => h.links q target (h'.links q target hq)⟩

/-- Below a new place there are no links. -/
theorem noLinks (h : Grows old new) (htop : old.node top = none) (s : List N) (target : List N) :
    new.node (top ++ s) ≠ some (.file (.link target)) := by
  intro hlink
  have hold := h.links _ _ hlink
  cases s with
  | nil =>
    rw [List.append_nil, htop] at hold
    cases hold
  | cons m s =>
    rw [none_below (List.cons_ne_nil m s) (by rw [htop]; simp)] at hold
    cases hold

/-- Where a path leads in the grown tree, it leads in the old one. -/
theorem follow (h : Grows old new) (hq : new.follow k top p = .ok q) :
    old.follow k top p = .ok q := by
  induction k, top, p using follow_induction old with
  | nil k top => simpa using hq
  | dir k top n rest hnode ih =>
    rw [follow_dir (h.keeps _ _ hnode)] at hq
    rw [follow_dir hnode]
    exact ih hq
  | link k top n rest target hnode ih =>
    rw [follow_link (h.keeps _ _ hnode)] at hq
    rw [follow_link hnode]
    exact ih hq
  | stuck top n rest target hnode =>
    rw [follow_link_zero (h.keeps _ _ hnode)] at hq
    cases hq
  | ends k top n rest x hnode hend =>
    rw [follow_end (h.keeps _ _ hnode) hend] at hq
    rw [follow_end hnode hend]
    exact hq
  | none k top n rest hnode =>
    rw [follow_none hnode]
    rcases follow_first new top n with hdir | ⟨target, hlink⟩ | ⟨x, hx, hend⟩ | hnone
    · -- a new directory, and only new things below it
      rw [follow_dir hdir] at hq
      rw [follow_of_noLinks (h.noLinks hnode) hq]
      simp
    · exact absurd (h.links _ _ hlink) (by rw [hnode]; simp)
    · rw [follow_end hx hend] at hq
      cases rest with
      | nil => exact hq
      | cons m rest => cases hq
    · rw [follow_none hnone] at hq
      exact hq

/-- A path that leads to something still leads there. -/
theorem follow_of_isSome (h : Grows old new) (hq : old.follow k top p = .ok q)
    (hsome : (old.node q).isSome = true) : new.follow k top p = .ok q := by
  induction k, top, p using follow_induction old with
  | nil k top => simpa using hq
  | dir k top n rest hnode ih =>
    rw [follow_dir hnode] at hq
    rw [follow_dir (h.keeps _ _ hnode)]
    exact ih hq
  | link k top n rest target hnode ih =>
    rw [follow_link hnode] at hq
    rw [follow_link (h.keeps _ _ hnode)]
    exact ih hq
  | stuck top n rest target hnode =>
    rw [follow_link_zero hnode] at hq
    cases hq
  | ends k top n rest x hnode hend =>
    rw [follow_end hnode hend] at hq
    rw [follow_end (h.keeps _ _ hnode) hend]
    exact hq
  | none k top n rest hnode =>
    rw [follow_none hnode, Except.ok.injEq] at hq
    rw [← hq, none_along hnode] at hsome
    cases hsome

variable [DecidableEq N]

/-- A new file. -/
theorem put {dir : List N} {name : N} {i : Nat} (h : tree.Writable dir name)
    (hnone : tree.node (dir ++ [name]) = none) : Grows tree (tree.put dir name (.inode i) h) := by
  refine ⟨?_, ?_⟩
  · intro q x hq
    have hne : q ≠ dir ++ [name] := by
      rintro rfl
      rw [hnone] at hq
      cases hq
    rw [node_put_of_ne hne]
    exact hq
  · intro q target hq
    rw [node_put] at hq
    split at hq
    · simp at hq
    · exact hq

/-- New directories. -/
theorem makeDirs (h : tree.CanMake p) : Grows tree (tree.makeDirs p) := by
  refine ⟨?_, ?_⟩
  · intro q x hq
    rw [node_makeDirs]
    split
    · rename_i hpre
      rcases h q hpre with hnone | hdir
      · rw [hnone] at hq
        cases hq
      · rw [← hq, hdir]
    · exact hq
  · intro q target hq
    rw [node_makeDirs] at hq
    split at hq
    · simp at hq
    · exact hq

end Grows

end FileTree

end SkegRigging
