import SkegRigging.Adapter.FullCopy
import SkegRigging.Reference.Files

/-!
# Termination of the directory copy

`copy_dir_contents` enumerates a tree that its own `create_dir_all` may extend. Here a directory is
listed when `read_dir` is called on it (`copyLive`), while `copyDirContents` takes the listings as
given.

The recursion ends for every file system exactly when the destination does not lie inside the source
(`copyTerminates_iff`). Where it does not, every directory that is made for an entry of the source
is outside the source or no deeper than that entry, so the depth of the source bounds the recursion.
Where it does, the way from the source to the destination is found again in the destination, one
directory further down at every call.
-/

set_option autoImplicit false

namespace SkegRigging

open FileTree

namespace Fs

variable {F S C : Type} {E : DiskVamanaIndex F S}

/-! ## Listings at the time of the call -/

section Live

variable (empty : C) (env : FsEnv C) (list : FileTree String C → List String → List String)

/-- `copy_dir_contents`, at most `fuel` levels deep. `list fs src` is what `read_dir src` shows when
it is called on the file system `fs`. -/
def copyLive : Nat → FileTree String C → List String → List String →
    Option (FileTree String C × Except IoError Unit)
  | 0, _, _, _ => none
  | fuel + 1, fs, src, dest =>
    match env.readDir src with
    | some e => some (fs, .error e)
    | none =>
      match fs.node src with
      | some .dir => copyEntries empty env (copyLive fuel) src dest fs (list fs src)
      | some _ => some (fs, .error notADirectory)
      | none => some (fs, .error notFound)

/-- With listings that are given it is `copyDirContents`. -/
theorem copyLive_order (fuel : Nat) :
    copyLive empty env (fun _ => env.order) fuel = copyDirContents empty env fuel := by
  induction fuel with
  | zero => rfl
  | succ fuel ih =>
    funext fs src dest
    rw [copyDirContents, ← ih]
    rfl

end Live

/-- A listing shows what is in the directory. -/
def ListsNow (list : FileTree String C → List String → List String) : Prop :=
  ∀ fs q, fs.node q = some .dir → ∀ n, n ∈ list fs q ↔ fs.exists (q ++ [n]) = true

/-- A listing shows what was in the directory when it was called, and perhaps names that appear
later. -/
def ShowsAll (list : FileTree String C → List String → List String) : Prop :=
  ∀ fs q, fs.node q = some .dir → ∀ n, fs.exists (q ++ [n]) = true → n ∈ list fs q

/-- The copy of `src` into `dest` ends, whatever the file system holds and the operating system
does, if the tree at `src` has a depth. -/
def CopyTerminates (empty : C) (src dest : List String) : Prop :=
  ∀ (env : FsEnv C) (list : FileTree String C → List String → List String)
    (fs : FileTree String C), ShowsAll list → (∃ k, DepthLE fs src k) →
    ∃ fuel, (copyLive empty env list fuel fs src dest).isSome = true

/-- `dest` lies inside `src`. -/
def Inside (src dest : List String) : Prop := ∃ n s, dest = src ++ n :: s

/-! ## The depth of the source bounds the recursion -/

section Bounded

variable {empty : C} {env : FsEnv C} {list : FileTree String C → List String → List String}
  {fs fs' : FileTree String C} {base : List String} {k : Nat}

/-- What of `q` is below `base` is at most `d` levels below it. -/
def Shallow (base : List String) (d : Nat) (q : List String) : Prop :=
  ∀ r, base ++ r <+: q → r.length ≤ d

theorem Shallow.entry {d : Nat} {dest : List String} (h : Shallow base d dest) (n : String) :
    Shallow base (d + 1) (dest ++ [n]) := by
  intro r hr
  rw [List.prefix_concat_iff] at hr
  rcases hr with heq | hle
  · rcases List.eq_nil_or_concat r with rfl | ⟨r, m, rfl⟩
    · exact Nat.zero_le _
    · -- the last name of the path is the entry, the rest leads to `dest`
      rw [List.concat_eq_append, ← List.append_assoc] at heq
      have hdest := (List.append_inj' heq rfl).1
      have hlen := h r (hdest ▸ List.prefix_refl _)
      rw [List.length_concat]
      omega
  · exact (h r hle).trans (Nat.le_succ d)

theorem shallow_entry (base : List String) (n : String) : Shallow base 1 (base ++ [n]) := by
  intro r hr
  have hlen := hr.length_le
  simpa using hlen

/-- A call adds nothing to the file system but paths at or above `top`. -/
def Adds (top : List String) (fs fs' : FileTree String C) : Prop :=
  ∀ q, fs'.exists q = true → fs.exists q = true ∨ q <+: top

theorem Adds.depthLE {top : List String} (h : Adds top fs fs') (htop : Shallow base k top)
    (hfs : DepthLE fs base k) : DepthLE fs' base k := by
  intro r hr
  rcases h _ hr with hold | hnew
  · exact hfs r hold
  · exact htop r hnew

theorem adds_makeDirs {p top : List String} (hp : p <+: top) : Adds top fs (fs.makeDirs p) := by
  intro q hq
  by_cases hpre : q <+: p
  · exact Or.inr (hpre.trans hp)
  · rw [FileTree.exists, node_makeDirs_of_not_above hpre] at hq
    exact Or.inl hq

theorem createDirAll_adds {stop : Option (Nat × IoError)} {path : List String}
    {r : Except IoError Unit} (h : createDirAll stop fs path = (fs', r)) : Adds path fs fs' := by
  rcases createDirAll_cases h with ⟨rfl, -⟩ | ⟨made, hmade, -, rfl, -⟩
  · exact fun q hq => Or.inl hq
  · exact adds_makeDirs hmade

theorem Adds.put {p top : List String} {n : String} {c : C} {h : fs'.Writable p n}
    (hadds : Adds top fs fs') (htop : p ++ [n] <+: top) : Adds top fs (fs'.put p n c h) := by
  intro q hq
  by_cases hnew : q = p ++ [n]
  · exact Or.inr (hnew ▸ htop)
  · rw [FileTree.exists, node_put_of_ne hnew] at hq
    exact hadds q hq

theorem copyFile_adds {outcome : CopyOutcome C} {src dest : List String} {name : String}
    {r : Except IoError Unit} (h : copyFile empty outcome fs src dest name = (fs', r)) :
    Adds (dest ++ [name]) fs fs' := by
  have hself : Adds (dest ++ [name]) fs fs := fun q hq => Or.inl hq
  have hput : ∀ c (hw : fs.Writable dest name), Adds (dest ++ [name]) fs (fs.put dest name c hw) :=
    fun c hw => hself.put (List.prefix_refl _)
  rcases copyFile_cases h with rfl | ⟨left, hw, rfl⟩ | ⟨c, hw, rfl⟩
  · exact hself
  · exact hput left hw
  · exact (hput empty hw).put (List.prefix_refl _)

/-- A loop whose iterations all return does return. -/
theorem copyEntries_returns {copyDir : FileTree String C → List String → List String →
      Option (FileTree String C × Except IoError Unit)} {src dest : List String}
    {P : FileTree String C → Prop} {names : List String}
    (hstep : ∀ name mid, P mid → ∃ mid' r, copyEntry empty env copyDir src dest mid name =
      some (mid', r) ∧ P mid') (hfs : P fs) :
    ∃ fs' r, copyEntries empty env copyDir src dest fs names = some (fs', r) ∧ P fs' := by
  induction names generalizing fs with
  | nil => exact ⟨fs, _, rfl, hfs⟩
  | cons name names ih =>
    obtain ⟨mid, r, hmid, hP⟩ := hstep name fs hfs
    cases r with
    | error e => exact ⟨mid, .error e, by rw [copyEntries, hmid], hP⟩
    | ok u =>
      obtain ⟨fs', r, hrest, hP'⟩ := ih hP
      exact ⟨fs', r, by rw [copyEntries, hmid]; exact hrest, hP'⟩

/-- An iteration returns when the recursive call does. An entry that is there is within the depth of
the tree, so its counterpart may be made. -/
theorem copyEntry_returns {copyDir : FileTree String C → List String → List String →
      Option (FileTree String C × Except IoError Unit)} {s dest : List String} {name : String}
    (hfs : DepthLE fs base k) (hdest : Shallow base s.length dest)
    (hrec : ∀ made, DepthLE made base k → s.length + 1 ≤ k → ∃ fs' r,
      copyDir made (base ++ s ++ [name]) (dest ++ [name]) = some (fs', r) ∧ DepthLE fs' base k) :
    ∃ fs' r, copyEntry empty env copyDir (base ++ s) dest fs name = some (fs', r) ∧
      DepthLE fs' base k := by
  have hlevel : ∀ o, fs.node (base ++ s ++ [name]) = some o → s.length + 1 ≤ k := by
    intro o ho
    have hle := hfs (s ++ [name]) (by rw [FileTree.exists, ← List.append_assoc, ho]; rfl)
    simpa using hle
  have htop (hle : s.length + 1 ≤ k) : Shallow base k (dest ++ [name]) :=
    fun r hr => (hdest.entry name r hr).trans hle
  rw [copyEntry]
  split
  · exact ⟨_, _, rfl, hfs⟩
  · split
    · rename_i hsub
      have hle := hlevel _ hsub
      split
      · rename_i made e hmade
        exact ⟨_, _, rfl, (createDirAll_adds hmade).depthLE (htop hle) hfs⟩
      · rename_i made hmade
        exact hrec made ((createDirAll_adds hmade).depthLE (htop hle) hfs) hle
    · rename_i c hfile
      exact ⟨_, _, rfl, (copyFile_adds rfl).depthLE (htop (hlevel _ hfile)) hfs⟩
    · exact ⟨_, _, rfl, hfs⟩
    · exact ⟨_, _, rfl, hfs⟩

/-- A directory `s` below `base` in a tree of depth `k` needs as much fuel as levels are left. -/
theorem copyLive_returns {fuel : Nat} {s dest : List String} (hfs : DepthLE fs base k)
    (hs : s.length ≤ k) (hfuel : k < fuel + s.length) (hdest : Shallow base s.length dest) :
    ∃ fs' r, copyLive empty env list fuel fs (base ++ s) dest = some (fs', r) ∧
      DepthLE fs' base k := by
  induction fuel generalizing fs s dest with
  | zero => omega
  | succ fuel ih =>
    cases hread : env.readDir (base ++ s) with
    | some e => exact ⟨fs, .error e, by rw [copyLive, hread], hfs⟩
    | none =>
      cases hnode : fs.node (base ++ s) with
      | none => exact ⟨fs, .error notFound, by rw [copyLive, hread, hnode], hfs⟩
      | some node =>
        cases node with
        | file c => exact ⟨fs, .error notADirectory, by rw [copyLive, hread, hnode], hfs⟩
        | special => exact ⟨fs, .error notADirectory, by rw [copyLive, hread, hnode], hfs⟩
        | dir =>
          rw [copyLive, hread, hnode]
          apply copyEntries_returns _ hfs
          intro name mid hmid
          apply copyEntry_returns hmid hdest
          -- the recursive call is one level deeper and has one unit of fuel less
          intro made hmade hle
          rw [List.append_assoc]
          apply ih hmade
          · simpa using hle
          · simp only [List.length_append, List.length_cons, List.length_nil]
            omega
          · rw [List.length_append]
            exact hdest.entry name

/-- A destination that is not inside the source has no part below it. -/
theorem shallow_of_not_inside {src dest : List String} (h : ¬ Inside src dest) :
    Shallow src 0 dest := by
  intro r hr
  cases r with
  | nil => exact Nat.le_refl 0
  | cons n r =>
    obtain ⟨s, rfl⟩ := hr
    exact absurd ⟨n, r ++ s, by simp⟩ h

theorem terminates_of_not_inside {src dest : List String} (h : ¬ Inside src dest) :
    CopyTerminates empty src dest := by
  rintro env list fs - ⟨k, hk⟩
  obtain ⟨fs', r, hrun, -⟩ : ∃ fs' r, copyLive empty env list (k + 1) fs (src ++ []) dest =
      some (fs', r) ∧ DepthLE fs' src k :=
    copyLive_returns hk (Nat.zero_le k) (Nat.lt_succ_self k) (shallow_of_not_inside h)
  rw [List.append_nil] at hrun
  exact ⟨k + 1, by rw [hrun]; rfl⟩

end Bounded

/-! ## A destination inside the source -/

section Diverging

variable {empty : C} {env : FsEnv C} {list : FileTree String C → List String → List String}
  {fs mid mid' : FileTree String C} {src dest : List String}

/-- A node without the content of a file. -/
def kind (fs : FileTree String C) (q : List String) : Option (Node Unit) :=
  match fs.node q with
  | some .dir => some .dir
  | some (.file _) => some (.file ())
  | some .special => some .special
  | none => none

theorem kind_eq_dir {q : List String} : kind fs q = some .dir ↔ fs.node q = some .dir := by
  unfold kind
  split <;> simp_all

theorem kind_eq_none {q : List String} : kind fs q = none ↔ fs.exists q = false := by
  unfold kind FileTree.exists
  split <;> simp_all

/-- What is there keeps its kind. -/
theorem kind_of_extends (h : Extends fs mid) {q : List String} (hq : fs.exists q = true) :
    kind mid q = kind fs q := by
  obtain ⟨node, hnode⟩ := Option.isSome_iff_exists.1 hq
  cases node with
  | dir => rw [Fs.kind, Fs.kind, hnode, h.dir q hnode]
  | file c =>
    obtain ⟨c', hc'⟩ := h.file q c hnode
    rw [Fs.kind, Fs.kind, hnode, hc']
  | special => rw [Fs.kind, Fs.kind, hnode, h.special q hnode]

/-- Whatever is at or below `dest` has something of its kind as its counterpart at `src`. -/
def Mirrors (fs : FileTree String C) (src dest : List String) : Prop :=
  ∀ r, fs.exists (dest ++ r) = true → kind fs (dest ++ r) = kind fs (src ++ r)

theorem Mirrors.entry (h : Mirrors fs src dest) (n : String) :
    Mirrors fs (src ++ [n]) (dest ++ [n]) := by
  intro r hr
  rw [List.append_assoc] at hr
  rw [List.append_assoc, List.append_assoc]
  exact h ([n] ++ r) hr

/-- An empty directory mirrors every directory. -/
theorem mirrors_of_empty (hsrc : fs.node src = some .dir) (hdest : fs.node dest = some .dir)
    (hempty : EmptyBelow fs dest) : Mirrors fs src dest := by
  intro r hr
  by_cases hne : r = []
  · subst hne
    rw [List.append_nil, List.append_nil, kind_eq_dir.2 hsrc, kind_eq_dir.2 hdest]
  · rw [FileTree.exists, hempty r hne] at hr
    simp at hr

/-- Nothing but `top` is new. -/
theorem Adds.new {top : List String} (h : Adds top mid mid') (habove : mid.node top.dropLast =
    some .dir) {q : List String} (hq : mid'.exists q = true) :
    mid.exists q = true ∨ q = top := by
  rcases h q hq with hold | hpre
  · exact Or.inl hold
  · rcases List.eq_nil_or_concat top with rfl | ⟨p, n, rfl⟩
    · exact Or.inr (List.prefix_nil.1 hpre)
    · rw [List.concat_eq_append, List.dropLast_concat] at habove
      rw [List.concat_eq_append, List.prefix_concat_iff] at hpre
      rcases hpre with heq | hle
      · apply Or.inr
        rw [List.concat_eq_append, heq]
      · apply Or.inl
        rw [FileTree.exists, dir_above hle habove]
        rfl

/-- A mirror stays one when a counterpart is made for an entry of the source. -/
theorem Mirrors.write {s : List String} {n : String} (h : Mirrors mid src dest)
    (hext : Extends mid mid') (hadds : Adds (dest ++ s ++ [n]) mid mid')
    (hdir : mid.node (dest ++ s) = some .dir) (hsrc : mid.exists (src ++ s ++ [n]) = true)
    (hkind : kind mid' (dest ++ s ++ [n]) = kind mid (src ++ s ++ [n])) :
    Mirrors mid' src dest := by
  intro r hr
  by_cases hold : mid.exists (dest ++ r) = true
  · have hpair := h r hold
    have hthere : mid.exists (src ++ r) = true := by
      rw [← Bool.not_eq_false, ← kind_eq_none, ← hpair, kind_eq_none]
      simpa using hold
    rw [kind_of_extends hext hold, kind_of_extends hext hthere, hpair]
  · have habove : mid.node (dest ++ s ++ [n]).dropLast = some .dir := by
      rwa [List.dropLast_concat]
    have heq := (hadds.new habove hr).resolve_left hold
    rw [List.append_assoc, List.append_cancel_left_eq] at heq
    subst heq
    rw [← List.append_assoc, ← List.append_assoc, hkind, kind_of_extends hext hsrc]

/-- How a call on a mirror can end: without an error, and the file system is still one. -/
def Through (src dest : List String) (fs : FileTree String C)
    (o : Option (FileTree String C × Except IoError Unit)) : Prop :=
  ∀ fs' r, o = some (fs', r) → r = .ok () ∧ Extends fs fs' ∧ Mirrors fs' src dest

/-- The recursive call goes through below `src` and `dest`. -/
def CallThrough (src dest : List String) (copyDir : FileTree String C → List String → List String →
    Option (FileTree String C × Except IoError Unit)) : Prop :=
  ∀ s fs, Mirrors fs src dest → fs.node (src ++ s) = some .dir → fs.node (dest ++ s) = some .dir →
    Through src dest fs (copyDir fs (src ++ s) (dest ++ s))

variable {copyDir : FileTree String C → List String → List String →
    Option (FileTree String C × Except IoError Unit)} {s : List String} {n : String}

/-- The counterpart of a directory can be made. -/
theorem Mirrors.createDirAll (henv : Quiet env) (h : Mirrors mid src dest)
    (hsrc : mid.node (src ++ s ++ [n]) = some .dir) (hdest : mid.node (dest ++ s) = some .dir) :
    createDirAll (env.createDir (dest ++ s ++ [n])) mid (dest ++ s ++ [n]) =
        (mid.makeDirs (dest ++ s ++ [n]), .ok ()) ∧
      Extends mid (mid.makeDirs (dest ++ s ++ [n])) ∧
      Mirrors (mid.makeDirs (dest ++ s ++ [n])) src dest := by
  have hmake : mid.CanMake (dest ++ s ++ [n]) := by
    apply canMake_append hdest
    cases hnode : mid.node (dest ++ s ++ [n]) with
    | none => exact Or.inl rfl
    | some node =>
      have hpair := h (s ++ [n]) (by rw [FileTree.exists, ← List.append_assoc, hnode]; rfl)
      rw [← List.append_assoc, ← List.append_assoc, kind_eq_dir.2 hsrc, kind_eq_dir, hnode] at hpair
      exact Or.inr hpair
  have hext := extends_makeDirs hmake
  refine ⟨by simp only [Fs.createDirAll, henv.createDir, if_pos hmake], hext, ?_⟩
  apply h.write hext (adds_makeDirs (List.prefix_refl _)) hdest (by rw [FileTree.exists, hsrc]; rfl)
  rw [kind_eq_dir.2 node_makeDirs_self, kind_eq_dir.2 hsrc]

/-- The counterpart of a file can be written. -/
theorem Mirrors.copyFile {c : C} (h : Mirrors mid src dest)
    (hsrc : mid.node (src ++ s ++ [n]) = some (.file c))
    (hdest : mid.node (dest ++ s) = some .dir) :
    Through src dest mid (some (copyFile empty .done mid (src ++ s ++ [n]) (dest ++ s) n)) := by
  have hpair : ∀ node, mid.node (dest ++ s ++ [n]) = some node →
      kind mid (dest ++ s ++ [n]) = some (.file ()) := by
    intro node hnode
    have hr := h (s ++ [n]) (by rw [FileTree.exists, ← List.append_assoc, hnode]; rfl)
    rw [← List.append_assoc, ← List.append_assoc] at hr
    rw [hr, kind, hsrc]
  have hw : mid.Writable (dest ++ s) n := by
    refine ⟨hdest, ?_, ?_⟩
    · intro hnode
      have hfile := hpair _ hnode
      rw [kind, hnode] at hfile
      simp at hfile
    · intro hnode
      have hfile := hpair _ hnode
      rw [kind, hnode] at hfile
      simp at hfile
  obtain ⟨fs', hcopy, hcontent, -⟩ : ∃ fs', Fs.copyFile empty .done mid (src ++ s ++ [n])
      (dest ++ s) n = (fs', .ok ()) ∧ _ ∧ _ := copyFile_done (content_eq_some_iff.2 hsrc) hw
  intro fs₂ r hrun
  rw [hcopy, Option.some.injEq, Prod.mk.injEq] at hrun
  obtain ⟨rfl, rfl⟩ := hrun
  have hext : Extends mid fs' :=
    copyFile_keeps (keeps_extends mid _) hcopy (Extends.refl mid)
  refine ⟨rfl, hext, ?_⟩
  apply h.write hext (copyFile_adds hcopy) hdest (by rw [FileTree.exists, hsrc]; rfl)
  rw [kind, kind, hsrc, content_eq_some_iff.1 hcontent]

theorem copyEntry_through (henv : Quiet env) (hrec : CallThrough src dest copyDir)
    (h : Mirrors mid src dest) (hsrc : mid.exists (src ++ s ++ [n]) = true)
    (hdest : mid.node (dest ++ s) = some .dir) :
    Through src dest mid (copyEntry empty env copyDir (src ++ s) (dest ++ s) mid n) := by
  unfold copyEntry
  rw [henv.entry, henv.copy]
  dsimp only
  split
  · rename_i hnode
    obtain ⟨hmade, hext, hmirror⟩ := h.createDirAll henv hnode hdest
    rw [hmade]
    dsimp only
    have hcall := hrec (s ++ [n]) _ hmirror
      (by rw [← List.append_assoc]; exact hext.dir _ hnode)
      (by rw [← List.append_assoc]; exact node_makeDirs_self)
    rw [← List.append_assoc, ← List.append_assoc] at hcall
    intro fs' r hrun
    obtain ⟨hr, hext', hmirror'⟩ := hcall fs' r hrun
    exact ⟨hr, hext.trans hext', hmirror'⟩
  · rename_i c hnode
    exact h.copyFile hnode hdest
  · intro fs' r hrun
    simp only [Option.some.injEq, Prod.mk.injEq] at hrun
    obtain ⟨rfl, rfl⟩ := hrun
    exact ⟨rfl, Extends.refl _, h⟩
  · rename_i hnode
    rw [FileTree.exists, hnode] at hsrc
    simp at hsrc

/-- The loop goes through as far as its iterations return. -/
theorem copyEntries_through {names : List String} (henv : Quiet env)
    (hrec : CallThrough src dest copyDir) (h : Mirrors mid src dest)
    (hsrc : ∀ n ∈ names, mid.exists (src ++ s ++ [n]) = true)
    (hdest : mid.node (dest ++ s) = some .dir) :
    Through src dest mid (copyEntries empty env copyDir (src ++ s) (dest ++ s) mid names) := by
  induction names generalizing mid with
  | nil =>
    intro fs' r hrun
    simp only [copyEntries, Option.some.injEq, Prod.mk.injEq] at hrun
    obtain ⟨rfl, rfl⟩ := hrun
    exact ⟨rfl, Extends.refl _, h⟩
  | cons name names ih =>
    have hname : Through src dest mid
        (copyEntry empty env copyDir (src ++ s) (dest ++ s) mid name) :=
      copyEntry_through henv hrec h (hsrc name List.mem_cons_self) hdest
    intro fs' r hrun
    unfold copyEntries at hrun
    split at hrun
    · simp at hrun
    · rename_i mid' e hmid
      obtain ⟨hr, -⟩ := hname _ _ hmid
      simp at hr
    · rename_i mid' hmid
      obtain ⟨-, hext, hmirror⟩ := hname _ _ hmid
      obtain ⟨hr, hext', hmirror'⟩ := ih hmirror
        (fun m hm => hext.exists (hsrc m (List.mem_cons_of_mem _ hm))) (hext.dir _ hdest) fs' r hrun
      exact ⟨hr, hext.trans hext', hmirror'⟩

theorem copyLive_through (henv : Quiet env) (hlist : ListsNow list) (fuel : Nat) :
    CallThrough src dest (copyLive empty env list fuel) := by
  induction fuel with
  | zero =>
    intro s fs _ _ _ fs' r hrun
    simp [copyLive] at hrun
  | succ fuel ih =>
    intro s fs hmirror hsrc hdest
    rw [copyLive, henv.readDir, hsrc]
    exact copyEntries_through henv ih hmirror (fun n hn => (hlist fs _ hsrc n).1 hn) hdest

/-- A loop over a name whose iteration does not return does not return. -/
theorem copyEntries_none {names : List String} {P : FileTree String C → Prop}
    (hstep : ∀ name ∈ names, ∀ mid mid' r, P mid →
      copyEntry empty env copyDir src dest mid name = some (mid', r) → r = .ok () ∧ P mid')
    (hn : n ∈ names) (hnone : ∀ mid, P mid → copyEntry empty env copyDir src dest mid n = none)
    (hfs : P fs) : copyEntries empty env copyDir src dest fs names = none := by
  induction names generalizing fs with
  | nil => simp at hn
  | cons name names ih =>
    by_cases hname : name = n
    · rw [copyEntries, hname, hnone fs hfs]
    · cases hmid : copyEntry empty env copyDir src dest fs name with
      | none => rw [copyEntries, hmid]
      | some o =>
        obtain ⟨mid, r⟩ := o
        obtain ⟨rfl, hP⟩ := hstep name List.mem_cons_self fs mid r hfs hmid
        rw [copyEntries, hmid]
        exact ih (fun m hm => hstep m (List.mem_cons_of_mem _ hm))
          ((List.mem_cons.1 hn).resolve_left (Ne.symm hname)) hP

/-- The copy of a directory into one of its own directories does not return: the first name on the
way there is listed, its counterpart is made at the destination, and the same way lies before the
recursive call. -/
theorem copyLive_diverges (henv : Quiet env) (hlist : ListsNow list) (hinside : Inside src dest)
    (hdest : fs.node dest = some .dir) (hmirror : Mirrors fs src dest) (fuel : Nat) :
    copyLive empty env list fuel fs src dest = none := by
  induction fuel generalizing fs src dest with
  | zero => rfl
  | succ fuel ih =>
    obtain ⟨m, rest, hrest⟩ := hinside
    have hway : src ++ [m] <+: dest := ⟨rest, by rw [hrest]; simp⟩
    have hsub : fs.node (src ++ [m]) = some .dir := dir_above hway hdest
    have hsrc : fs.node src = some .dir := dir_above (List.prefix_append _ _) hsub
    have hmem : m ∈ list fs src := (hlist fs src hsrc m).2 (by rw [FileTree.exists, hsub]; rfl)
    rw [copyLive, henv.readDir, hsrc]
    refine copyEntries_none (P := fun mid => Extends fs mid ∧ Mirrors mid src dest) ?_ hmem ?_
      ⟨Extends.refl fs, hmirror⟩
    · rintro name hname mid mid' r ⟨hext, hmid⟩ hrun
      have hthere := hext.exists ((hlist fs src hsrc name).1 hname)
      have hthrough : Through src dest mid (copyEntry empty env (copyLive empty env list fuel)
          (src ++ []) (dest ++ []) mid name) :=
        copyEntry_through henv (copyLive_through henv hlist fuel) hmid (by rwa [List.append_nil])
          (by rw [List.append_nil]; exact hext.dir _ hdest)
      rw [List.append_nil, List.append_nil] at hthrough
      obtain ⟨hr, hext', hmid'⟩ := hthrough mid' r hrun
      exact ⟨hr, hext.trans hext', hmid'⟩
    · rintro mid ⟨hext, hmid⟩
      have hnode := hext.dir _ hsub
      obtain ⟨hmade, hext', hmirror'⟩ := hmid.createDirAll (s := []) (n := m) henv
        (by rwa [List.append_nil]) (by rw [List.append_nil]; exact hext.dir _ hdest)
      rw [List.append_nil] at hmade hext' hmirror'
      unfold copyEntry
      rw [henv.entry, hnode]
      dsimp only
      rw [hmade]
      dsimp only
      apply ih _ node_makeDirs_self (hmirror'.entry m)
      rcases rest with - | ⟨m', rest⟩
      · exact ⟨m, [], by rw [hrest]⟩
      · exact ⟨m', rest ++ [m], by rw [hrest]; simp⟩

theorem exists_listsNow :
    ∃ list : FileTree String C → List String → List String, ListsNow list := by
  have hlists : ∀ fs : FileTree String C, ∃ order, Lists order fs [] := fun fs => exists_lists fs []
  choose list hlist using hlists
  exact ⟨list, fun fs q hq => (hlist fs q (List.nil_prefix) hq).2⟩

theorem ListsNow.showsAll (h : ListsNow list) : ShowsAll list :=
  fun fs q hq n => (h fs q hq n).2

/-- The file system with nothing but the destination and what is above it. -/
theorem depthLE_bare (src dest : List String) :
    DepthLE ((bare : FileTree String C).makeDirs dest) src dest.length := by
  intro r hr
  have hadds : Adds dest (bare : FileTree String C) (bare.makeDirs dest) :=
    adds_makeDirs (List.prefix_refl dest)
  rcases hadds _ hr with hroot | hpre
  · -- the empty file system has its root only
    cases hq : src ++ r with
    | nil => simp [(List.append_eq_nil_iff.1 hq).2]
    | cons m q =>
      rw [hq] at hroot
      simp [FileTree.exists, bare] at hroot
  · have hlen := hpre.length_le
    rw [List.length_append] at hlen
    omega

/-- A copy into a new directory inside the source does not return either. -/
theorem copyLive_new (henv : Quiet env) (hlist : ListsNow list) (hinside : Inside src dest)
    (hdest : fs.node dest = some .dir) (hempty : EmptyBelow fs dest) (fuel : Nat) :
    copyLive empty env list fuel fs src dest = none := by
  obtain ⟨n, s, hs⟩ := hinside
  have hsrc : fs.node src = some .dir := dir_above (hs ▸ List.prefix_append _ _) hdest
  exact copyLive_diverges henv hlist ⟨n, s, hs⟩ hdest (mirrors_of_empty hsrc hdest hempty) fuel

/-- Nothing is below a directory that was not there. -/
theorem emptyBelow_makeDirs (hnew : fs.exists dest = false) :
    EmptyBelow (fs.makeDirs dest) dest := by
  intro r hr
  rw [node_makeDirs_below (List.prefix_refl _) hr]
  apply none_below hr
  intro hdir
  rw [FileTree.exists, hdir] at hnew
  simp at hnew

theorem not_terminates_of_inside (h : Inside src dest) : ¬ CopyTerminates empty src dest := by
  intro hterm
  obtain ⟨list, hlist⟩ := exists_listsNow (C := C)
  have hnew : (bare : FileTree String C).exists dest = false := by
    obtain ⟨n, s, rfl⟩ := h
    cases src <;> rfl
  obtain ⟨fuel, hfuel⟩ := hterm (Reference.calm fun _ => []) list _ hlist.showsAll
    ⟨_, depthLE_bare src dest⟩
  rw [copyLive_new (Reference.quiet_calm _) hlist h node_makeDirs_self (emptyBelow_makeDirs hnew)
    fuel] at hfuel
  simp at hfuel

end Diverging

/-- For every two paths: the copy of one directory into another ends for every file system exactly
when the destination does not lie inside the source. Where it does, the copy ends on no file system
on which nothing fails and the destination is a new directory, or one of the shape of the source. -/
theorem copyTerminates_iff (empty : C) (src dest : List String) :
    (CopyTerminates empty src dest ↔ ¬ Inside src dest) ∧
      (Inside src dest → ∀ (env : FsEnv C) (list : FileTree String C → List String → List String)
        (fs : FileTree String C), Quiet env → ListsNow list → fs.node dest = some .dir →
        (EmptyBelow fs dest ∨ Mirrors fs src dest) →
        ∀ fuel, copyLive empty env list fuel fs src dest = none) := by
  refine ⟨⟨fun h hinside => not_terminates_of_inside hinside h, terminates_of_not_inside⟩, ?_⟩
  intro hinside env list fs henv hlist hdest hshape fuel
  rcases hshape with hempty | hmirror
  · exact copyLive_new henv hlist hinside hdest hempty fuel
  · exact copyLive_diverges henv hlist hinside hdest hmirror fuel

/-! ## Snapshots into the tenant directory -/

section Snapshot

variable {K : FileFormat E C} {J : SerdeJson} {fs fs' : FileTree String C} {t : Tenant E}

/-- A flush writes `meta.json` or nothing. -/
theorem flush_cases {o : WriteOutcome} {r : Except TenantError Unit}
    (h : flush K J o fs t = (fs', r)) : fs' = fs ∨ ∃ bytes,
      ∃ hw : fs.Writable t.dir.components "meta.json",
        fs' = fs.put t.dir.components "meta.json" (K.ofText bytes) hw := by
  have hfst : (flush K J o fs t).1 = fs' := by rw [h]
  rw [flush] at hfst
  by_cases hreadOnly : t.readOnly
  · rw [if_pos hreadOnly] at hfst
    exact Or.inl hfst.symm
  · rw [if_neg hreadOnly] at hfst
    by_cases hw : fs.Writable t.dir.components "meta.json"
    · rw [dif_pos hw] at hfst
      split at hfst
      · exact Or.inl hfst.symm
      · exact Or.inr ⟨_, hw, hfst.symm⟩
    · rw [dif_neg hw] at hfst
      exact Or.inl hfst.symm

/-- A flush makes `meta.json` at most, and nothing when that is a directory. -/
theorem flush_adds {o : WriteOutcome} {r : Except TenantError Unit}
    (h : flush K J o fs t = (fs', r)) : Adds (metaPath t.dir.components) fs fs' := by
  have hself : Adds (metaPath t.dir.components) fs fs := fun q hq => Or.inl hq
  rcases flush_cases h with rfl | ⟨bytes, hw, rfl⟩
  · exact hself
  · exact hself.put (List.prefix_refl _)

/-- After a flush that returns, what is below a directory is what was there, unless it is the
sidecar. -/
theorem flush_below {o : WriteOutcome} {dest : List String}
    (h : flush K J o fs t = (fs', .ok ())) (hdest : fs.node dest = some .dir)
    (hinside : Inside t.dir.components dest) (hempty : EmptyBelow fs dest) :
    fs'.node dest = some .dir ∧ EmptyBelow fs' dest := by
  rcases flush_cases h with rfl | ⟨bytes, hw, rfl⟩
  · exact ⟨hdest, hempty⟩
  · refine ⟨(extends_put _ hw).dir _ hdest, ?_⟩
    intro r hr
    rw [node_put_of_ne, hempty r hr]
    -- a path below the destination is at least two names below the tenant directory
    intro heq
    obtain ⟨n, s, rfl⟩ := hinside
    have hlen := congrArg List.length heq
    have hpos := List.length_pos_of_ne_nil hr
    simp only [List.length_append, List.length_cons, List.length_nil] at hlen
    omega

/-- The destination and the sidecar are what is new when the copy begins. -/
theorem prepare_depth {o : WriteOutcome} {env : FsEnv C} {dest : List String} {k : Nat}
    {r : Except OpenError Unit} (h : prepare K J o env fs t dest = (fs', r))
    (hfs : DepthLE fs t.dir.components k) (hdest : Shallow t.dir.components k dest)
    (hmeta : Shallow t.dir.components k (metaPath t.dir.components)) :
    DepthLE fs' t.dir.components k := by
  have hmade : ∀ made res, (if fs.exists dest then (fs, .ok ()) else
      createDirAll (env.createDir dest) fs dest) = (made, res) →
      DepthLE made t.dir.components k := by
    intro made res hmake
    split at hmake
    · simp only [Prod.mk.injEq] at hmake
      exact hmake.1 ▸ hfs
    · exact (createDirAll_adds hmake).depthLE hdest hfs
  unfold prepare at h
  split at h
  · rename_i made e hmake
    simp only [Prod.mk.injEq] at h
    exact h.1 ▸ hmade _ _ hmake
  · rename_i made hmake
    split at h
    · rename_i flushed e hflush
      simp only [Prod.mk.injEq] at h
      exact h.1 ▸ (flush_adds hflush).depthLE hmeta (hmade _ _ hmake)
    · rename_i flushed hflush
      simp only [Prod.mk.injEq] at h
      exact h.1 ▸ (flush_adds hflush).depthLE hmeta (hmade _ _ hmake)

/-- A snapshot into a new directory inside the tenant's does not end. -/
theorem snapshot_diverges {o : WriteOutcome} {env : FsEnv C}
    {list : FileTree String C → List String → List String} {dest : List String} {empty : C}
    (henv : Quiet env) (hlist : ListsNow list) (hnew : fs.exists dest = false)
    (hinside : Inside t.dir.components dest) (h : prepare K J o env fs t dest = (fs', .ok ()))
    (fuel : Nat) : copyLive empty env list fuel fs' t.dir.components dest = none := by
  unfold prepare at h
  rw [hnew, if_neg (by simp)] at h
  split at h
  · simp at h
  · rename_i made hmade
    obtain ⟨-, -, rfl⟩ := createDirAll_ok hmade
    split at h
    · simp at h
    · rename_i flushed hflush
      simp only [Prod.mk.injEq, and_true] at h
      subst h
      obtain ⟨hdest, hbelow⟩ :=
        flush_below hflush node_makeDirs_self hinside (emptyBelow_makeDirs hnew)
      exact copyLive_new henv hlist hinside hdest hbelow fuel

end Snapshot

section Home

open Reference

/-- A snapshot of a tenant into `backup` in its own directory: the tree has a depth, nothing fails,
and the copy does not end. -/
theorem copyTerminates_backup : ∃ fs₀ : FileTree String (Bytes ⊕ Log),
    prepare plain json .done (calm homeOrder) homeTree stocked (home.components ++ ["backup"]) =
      (fs₀, .ok ()) ∧
    DepthLE fs₀ home.components 1 ∧
    (∃ list, ListsNow list ∧ ∀ fuel, copyLive plain.empty (calm homeOrder) list fuel fs₀
      home.components (home.components ++ ["backup"]) = none) ∧
    ¬ CopyTerminates plain.empty home.components (home.components ++ ["backup"]) := by
  have hret : (prepare plain json .done (calm homeOrder) homeTree stocked
      (home.components ++ ["backup"])).2 = .ok () := by decide +kernel
  have hnew : homeTree.exists (home.components ++ ["backup"]) = false := by decide +kernel
  have hinside : Inside home.components (home.components ++ ["backup"]) := ⟨"backup", [], rfl⟩
  obtain ⟨fs₀, hprep⟩ : ∃ fs₀, prepare plain json .done (calm homeOrder) homeTree stocked
      (home.components ++ ["backup"]) = (fs₀, .ok ()) := ⟨_, Prod.ext rfl hret⟩
  obtain ⟨list, hlist⟩ := exists_listsNow (C := Bytes ⊕ Log)
  exact ⟨fs₀, hprep, prepare_depth hprep depth_homeTree (shallow_entry _ _) (shallow_entry _ _),
    ⟨list, hlist, snapshot_diverges (quiet_calm _) hlist hnew hinside hprep⟩,
    not_terminates_of_inside hinside⟩

end Home

end Fs

end SkegRigging
