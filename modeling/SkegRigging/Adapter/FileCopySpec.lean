import SkegRigging.Adapter.FileCopy

/-!
# What a copy changes

Every write of `copy_dir_contents` is at or below an entry of the destination. A property that
survives such writes (`Keeps`) survives the copy, however it ends: nothing disappears or changes its
kind (`keeps_extends`), and what is apart from the destination stays as it is (`keeps_node`).
-/

set_option autoImplicit false

namespace SkegRigging.Fs

open FileTree

variable {F S C : Type} {E : DiskVamanaIndex F S}

/-- `P` survives every write at or below `top`. Directories above it may be made as well. -/
structure Keeps (top : List String) (P : FileTree String C → Prop) : Prop where
  put : ∀ fs d n c (h : fs.Writable d n), top <+: d ++ [n] → P fs → P (fs.put d n c h)
  makeDirs : ∀ fs p q, top <+: q → p <+: q → fs.CanMake p → P fs → P (fs.makeDirs p)

theorem Keeps.mono {top top' : List String} {P : FileTree String C → Prop} (h : Keeps top P)
    (hle : top <+: top') : Keeps top' P where
  put := fun fs d n c hw hd => h.put fs d n c hw (hle.trans hd)
  makeDirs := fun fs p q hq => h.makeDirs fs p q (hle.trans hq)

theorem Keeps.and {top : List String} {P Q : FileTree String C → Prop} (hP : Keeps top P)
    (hQ : Keeps top Q) : Keeps top fun fs => P fs ∧ Q fs where
  put := fun fs d n c hw hd h => ⟨hP.put fs d n c hw hd h.1, hQ.put fs d n c hw hd h.2⟩
  makeDirs := fun fs p q hq hp hm h =>
    ⟨hP.makeDirs fs p q hq hp hm h.1, hQ.makeDirs fs p q hq hp hm h.2⟩

/-- Every write extends the tree. -/
theorem keeps_extends (fs₀ : FileTree String C) (top : List String) : Keeps top (Extends fs₀) where
  put := fun _ _ _ c hw _ h => h.trans (extends_put c hw)
  makeDirs := fun _ _ _ _ _ hm h => h.trans (extends_makeDirs hm)

/-- What is neither at, below nor above `top` stays as it is. -/
theorem keeps_node {top q : List String} (hq : Apart top q) (o : Option (Node C)) :
    Keeps top fun fs => fs.node q = o where
  put := by
    intro fs d n c hw hd h
    have hne : q ≠ d ++ [n] := by
      rintro rfl
      exact hq.1 hd
    rw [node_put_of_ne hne]
    exact h
  makeDirs := by
    intro fs p r hr hp hm h
    have hnot : ¬ q <+: p := by
      intro hqp
      rcases List.prefix_or_prefix_of_prefix hr (hqp.trans hp) with hle | hle
      · exact hq.1 hle
      · exact hq.2 hle
    rw [node_makeDirs_of_not_above hnot]
    exact h

section Calls

variable {empty : C} {env : FsEnv C} {P : FileTree String C → Prop} {fs fs' : FileTree String C}

/-- What `create_dir_all` can do: nothing, or the directories down to some one above its path. -/
theorem createDirAll_cases {stop : Option (Nat × IoError)} {path : List String}
    {r : Except IoError Unit} (h : createDirAll stop fs path = (fs', r)) :
    (fs' = fs ∧ r ≠ .ok ()) ∨ ∃ made, made <+: path ∧ fs.CanMake made ∧ fs' = fs.makeDirs made ∧
      (r = .ok () → stop = none ∧ made = path) := by
  cases stop with
  | none =>
    rw [createDirAll] at h
    by_cases hmake : fs.CanMake path
    · rw [if_pos hmake, Prod.mk.injEq] at h
      exact Or.inr ⟨path, List.prefix_refl _, hmake, h.1.symm, fun _ => ⟨rfl, rfl⟩⟩
    · rw [if_neg hmake, Prod.mk.injEq] at h
      exact Or.inl ⟨h.1.symm, by simp [← h.2]⟩
  | some stopped =>
    obtain ⟨k, e⟩ := stopped
    rw [createDirAll, Prod.mk.injEq] at h
    obtain ⟨hmade, rfl⟩ := h
    have habove : path.dropLast.take k <+: path :=
      (List.take_prefix _ _).trans (List.dropLast_prefix _)
    split at hmade
    · rename_i hmake
      exact Or.inr ⟨_, habove, hmake, hmade.symm, fun hr => by cases hr⟩
    · exact Or.inl ⟨hmade.symm, by simp⟩

theorem createDirAll_keeps {stop : Option (Nat × IoError)} {top path : List String}
    {r : Except IoError Unit} (hP : Keeps top P) (hpath : top <+: path)
    (h : createDirAll stop fs path = (fs', r)) (hfs : P fs) : P fs' := by
  rcases createDirAll_cases h with ⟨rfl, -⟩ | ⟨made, hmade, hmake, rfl, -⟩
  · exact hfs
  · exact hP.makeDirs fs made path hpath hmade hmake hfs

theorem createDirAll_extends {stop : Option (Nat × IoError)} {path : List String}
    {r : Except IoError Unit} (h : createDirAll stop fs path = (fs', r)) : Extends fs fs' :=
  createDirAll_keeps (keeps_extends fs path) (List.prefix_refl _) h (Extends.refl fs)

theorem createDirAll_ok {stop : Option (Nat × IoError)} {path : List String}
    (h : createDirAll stop fs path = (fs', .ok ())) :
    stop = none ∧ fs.CanMake path ∧ fs' = fs.makeDirs path := by
  rcases createDirAll_cases h with ⟨-, hr⟩ | ⟨made, -, hmake, hmade, hdone⟩
  · exact absurd rfl hr
  · obtain ⟨hstop, rfl⟩ := hdone rfl
    exact ⟨hstop, hmake, hmade⟩

/-- `create_dir_all` makes nothing below its path. -/
theorem createDirAll_below {stop : Option (Nat × IoError)} {path s : List String}
    {r : Except IoError Unit} (h : createDirAll stop fs path = (fs', r)) (hs : s ≠ []) :
    fs'.node (path ++ s) = fs.node (path ++ s) := by
  rcases createDirAll_cases h with ⟨rfl, -⟩ | ⟨made, hmade, -, rfl, -⟩
  · rfl
  · exact node_makeDirs_below hmade hs

/-- What a copy of one file can do: nothing, one write of the destination, or its truncation and one
write. -/
theorem copyFile_cases {outcome : CopyOutcome C} {src dest : List String} {name : String}
    {r : Except IoError Unit} (h : copyFile empty outcome fs src dest name = (fs', r)) :
    fs' = fs ∨ (∃ left hw, fs' = fs.put dest name left hw) ∨
      ∃ c, ∃ hw : fs.Writable dest name,
        fs' = (fs.put dest name empty hw).put dest name c hw.put := by
  have hfst : (copyFile empty outcome fs src dest name).1 = fs' := by rw [h]
  rw [copyFile.eq_def] at hfst
  cases hsrc : fs.content src with
  | none =>
    rw [hsrc] at hfst
    exact Or.inl hfst.symm
  | some c =>
    rw [hsrc] at hfst
    cases outcome with
    | refused e => exact Or.inl hfst.symm
    | stopped left e =>
      by_cases hw : fs.Writable dest name
      · simp only [dif_pos hw] at hfst
        exact Or.inr (Or.inl ⟨left, hw, hfst.symm⟩)
      · simp only [dif_neg hw] at hfst
        exact Or.inl hfst.symm
    | done =>
      by_cases hw : fs.Writable dest name
      · simp only [dif_pos hw] at hfst
        exact Or.inr (Or.inr ⟨_, hw, hfst.symm⟩)
      · simp only [dif_neg hw] at hfst
        exact Or.inl hfst.symm

theorem copyFile_keeps {outcome : CopyOutcome C} {src dest : List String} {name : String}
    {r : Except IoError Unit} (hP : Keeps (dest ++ [name]) P)
    (h : copyFile empty outcome fs src dest name = (fs', r)) (hfs : P fs) : P fs' := by
  have hself : dest ++ [name] <+: dest ++ [name] := List.prefix_refl _
  rcases copyFile_cases h with rfl | ⟨left, hw, rfl⟩ | ⟨c, hw, rfl⟩
  · exact hfs
  · exact hP.put fs dest name left hw hself hfs
  · apply hP.put _ dest name c hw.put hself
    exact hP.put fs dest name empty hw hself hfs

/-- A complete copy writes its destination only. A file that is copied onto itself is empty
afterwards. -/
theorem copyFile_done {src dest : List String} {name : String} {c : C}
    (hc : fs.content src = some c) (hw : fs.Writable dest name) :
    ∃ fs', copyFile empty .done fs src dest name = (fs', .ok ()) ∧
      fs'.content (dest ++ [name]) = some (if src = dest ++ [name] then empty else c) ∧
      ∀ q, q ≠ dest ++ [name] → fs'.node q = fs.node q := by
  have hcopy : copyFile empty .done fs src dest name =
      ((fs.put dest name empty hw).put dest name
        (((fs.put dest name empty hw).content src).getD empty) hw.put, .ok ()) := by
    simp only [copyFile, hc, dif_pos hw]
  refine ⟨_, hcopy, ?_, ?_⟩
  · rw [content_put_self]
    split
    · rename_i heq
      rw [heq, content_put_self]
      rfl
    · rename_i hne
      rw [content_put_of_ne hne, hc]
      rfl
  · intro q hq
    rw [node_put_of_ne hq, node_put_of_ne hq]

/-- The recursive call keeps what survives writes below its destination. -/
def CallKeeps (copyDir : FileTree String C → List String → List String →
    Option (FileTree String C × Except IoError Unit)) (P : FileTree String C → Prop) : Prop :=
  ∀ fs src dest fs' r, Keeps dest P → copyDir fs src dest = some (fs', r) → P fs → P fs'

variable {copyDir : FileTree String C → List String → List String →
    Option (FileTree String C × Except IoError Unit)} {src dest : List String}
  {r : Except IoError Unit}

theorem copyEntry_keeps (hrec : CallKeeps copyDir P) {name : String}
    (hP : Keeps (dest ++ [name]) P)
    (h : copyEntry empty env copyDir src dest fs name = some (fs', r)) (hfs : P fs) : P fs' := by
  unfold copyEntry at h
  split at h
  · simp only [Option.some.injEq, Prod.mk.injEq] at h
    exact h.1 ▸ hfs
  · split at h
    · split at h
      · rename_i mid e hmid
        simp only [Option.some.injEq, Prod.mk.injEq] at h
        exact h.1 ▸ createDirAll_keeps hP (List.prefix_refl _) hmid hfs
      · rename_i mid hmid
        exact hrec _ _ _ _ _ hP h (createDirAll_keeps hP (List.prefix_refl _) hmid hfs)
    · exact copyFile_keeps hP (Option.some.inj h) hfs
    · simp only [Option.some.injEq, Prod.mk.injEq] at h
      exact h.1 ▸ hfs
    · simp only [Option.some.injEq, Prod.mk.injEq] at h
      exact h.1 ▸ hfs

/-- What every iteration keeps holds wherever the loop stops. -/
theorem copyEntries_invariant {names : List String}
    (hstep : ∀ name ∈ names, ∀ mid mid' res, copyEntry empty env copyDir src dest mid name =
      some (mid', res) → P mid → P mid')
    (h : copyEntries empty env copyDir src dest fs names = some (fs', r)) (hfs : P fs) :
    P fs' := by
  induction names generalizing fs with
  | nil =>
    simp only [copyEntries, Option.some.injEq, Prod.mk.injEq] at h
    exact h.1 ▸ hfs
  | cons name names ih =>
    have hname := hstep name List.mem_cons_self
    unfold copyEntries at h
    split at h
    · simp at h
    · rename_i mid e hmid
      simp only [Option.some.injEq, Prod.mk.injEq] at h
      exact h.1 ▸ hname _ _ _ hmid hfs
    · rename_i mid hmid
      exact ih (fun n hn => hstep n (List.mem_cons_of_mem _ hn)) h (hname _ _ _ hmid hfs)

theorem copyEntries_keeps (hrec : CallKeeps copyDir P) {names : List String}
    (hP : ∀ name ∈ names, Keeps (dest ++ [name]) P)
    (h : copyEntries empty env copyDir src dest fs names = some (fs', r)) (hfs : P fs) :
    P fs' :=
  copyEntries_invariant (fun name hname _ _ _ hmid => copyEntry_keeps hrec (hP name hname) hmid)
    h hfs

/-- What survives writes at and below the entries of `dest` survives a copy into `dest`. -/
theorem copyDirContents_keeps {fuel : Nat} (hP : ∀ name, Keeps (dest ++ [name]) P)
    (h : copyDirContents empty env fuel fs src dest = some (fs', r)) (hfs : P fs) : P fs' := by
  induction fuel generalizing fs fs' src dest r with
  | zero => simp [copyDirContents] at h
  | succ fuel ih =>
    unfold copyDirContents at h
    split at h
    · simp only [Option.some.injEq, Prod.mk.injEq] at h
      exact h.1 ▸ hfs
    · split at h
      · have hrec : CallKeeps (copyDirContents empty env fuel) P :=
          fun _ _ dest' _ _ hdest hcall hmid =>
            ih (fun name => hdest.mono (List.prefix_append dest' [name])) hcall hmid
        exact copyEntries_keeps hrec (fun name _ => hP name) h hfs
      · simp only [Option.some.injEq, Prod.mk.injEq] at h
        exact h.1 ▸ hfs
      · simp only [Option.some.injEq, Prod.mk.injEq] at h
        exact h.1 ▸ hfs

theorem callKeeps_copyDirContents (fuel : Nat) (P : FileTree String C → Prop) :
    CallKeeps (copyDirContents empty env fuel) P :=
  fun _ _ dest _ _ hdest hcall hfs =>
    copyDirContents_keeps (fun name => hdest.mono (List.prefix_append dest [name])) hcall hfs

end Calls

/-! ## A copy that goes along one path

An operating system that lists the way to `file` first and fails at every other entry. It shows what
a copy can do: the copy of `file` is made, and nothing after it.
-/

/-- List the next name on the way to `file` first, copy it, and stop at any other entry. -/
def leading (order : List String → List String) (file : List String) (stop : IoError) :
    FsEnv C where
  createDir _ := none
  readDir _ := none
  order q :=
    if q <+: file then
      match file[q.length]? with
      | some name => name :: (order q).filter fun other => other ≠ name
      | none => order q
    else order q
  entry p := if p <+: file then none else some stop
  copy _ := .done

section Leading

variable {empty : C} {order : List String → List String} {file src dest : List String}
  {stop : IoError} {fs : FileTree String C} {name : String}

theorem leading_entry {p : List String} (h : p <+: file) :
    (leading order file stop : FsEnv C).entry p = none := if_pos h

theorem leading_order (h : src ++ [name] <+: file) :
    (leading order file stop : FsEnv C).order src =
      name :: (order src).filter fun other => other ≠ name := by
  have hsrc : src <+: file := (List.prefix_append src [name]).trans h
  have hnext : file[src.length]? = some name := by
    obtain ⟨s, rfl⟩ := h
    simp
  simp only [leading, if_pos hsrc, hnext]

/-- The listing of `leading` is one of the entries that are there. -/
theorem leading_lists {top : List String} (h : Lists order fs top)
    (hfile : fs.exists file = true) : Lists (leading order file stop : FsEnv C).order fs top := by
  intro q htop hdir
  obtain ⟨hnodup, hmem⟩ := h q htop hdir
  by_cases hq : q <+: file
  · obtain ⟨rest, rfl⟩ := hq
    cases rest with
    | nil =>
      have hnone : (q ++ [])[q.length]? = none := by simp
      simp only [leading, List.prefix_append, if_true, hnone]
      exact ⟨hnodup, hmem⟩
    | cons name rest =>
      have hentry : q ++ [name] <+: q ++ name :: rest := by simp
      have hthere : name ∈ order q := by
        rw [hmem name]
        obtain ⟨s, hs⟩ := hentry
        rcases s with - | ⟨m, s⟩
        · rw [List.append_nil] at hs
          rw [hs]
          exact hfile
        · have hbelow := dir_of_below (List.cons_ne_nil m s) (hs ▸ hfile)
          rw [FileTree.exists, hbelow]
          rfl
      rw [leading_order hentry]
      refine ⟨List.nodup_cons.2 ⟨by simp, hnodup.filter _⟩, ?_⟩
      intro n
      rw [List.mem_cons, List.mem_filter, ← hmem n]
      by_cases hn : n = name
      · simp [hn, hthere]
      · simp [hn]
  · simp only [leading, if_neg hq]
    exact ⟨hnodup, hmem⟩

variable {copyDir : FileTree String C → List String → List String →
    Option (FileTree String C × Except IoError Unit)}

/-- Off the way, the loop stops at once. -/
theorem leading_stops {names : List String} (hway : src ++ [name] <+: file)
    (hnames : ∀ other ∈ names, other ≠ name) :
    ∃ r, copyEntries empty (leading order file stop) copyDir src dest fs names = some (fs, r) := by
  cases names with
  | nil => exact ⟨_, rfl⟩
  | cons other names =>
    have hoff : ¬ src ++ [other] <+: file :=
      fun hle => hnames other List.mem_cons_self (entry_unique hle hway)
    have hentry : (leading order file stop : FsEnv C).entry (src ++ [other]) = some stop :=
      if_neg hoff
    refine ⟨.error stop, ?_⟩
    rw [copyEntries, copyEntry, hentry]

/-- After the first entry, which is on the way, the loop stops. -/
theorem leading_loop {fs' : FileTree String C} {r : Except IoError Unit}
    (hway : src ++ [name] <+: file)
    (h : copyEntry empty (leading order file stop) copyDir src dest fs name = some (fs', r)) :
    ∃ res, copyEntries empty (leading order file stop) copyDir src dest fs
      ((leading order file stop : FsEnv C).order src) = some (fs', res) := by
  rw [leading_order hway, copyEntries, h]
  cases r with
  | error e => exact ⟨_, rfl⟩
  | ok u =>
    exact leading_stops hway fun other hother => by
      simpa using (List.mem_filter.1 hother).2

/-- The copy of the file at the end of the way. A file that is copied onto itself is empty
afterwards. -/
theorem leading_copies {way : List String} {c : C} {fuel : Nat} (hway : file = src ++ way ++ [name])
    (hc : fs.content file = some c) (hw : fs.Writable (dest ++ way) name)
    (hfuel : way.length < fuel) :
    ∃ fs' r, copyDirContents empty (leading order file stop) fuel fs src dest = some (fs', r) ∧
      fs'.content (dest ++ way ++ [name]) =
        some (if file = dest ++ way ++ [name] then empty else c) := by
  induction way generalizing src dest fuel with
  | nil =>
    obtain ⟨fuel, rfl⟩ : ∃ k, fuel = k + 1 := ⟨fuel - 1, by omega⟩
    rw [List.append_nil] at hway hw
    rw [List.append_nil]
    have hnode := content_eq_some_iff.1 hc
    have hsrc : fs.node src = some .dir := fs.parent src name (by rw [← hway, hnode]; rfl)
    have hself : src ++ [name] <+: file := hway ▸ List.prefix_refl _
    have hentry : copyEntry empty (leading order file stop)
        (copyDirContents empty (leading order file stop) fuel) src dest fs name =
        some (copyFile empty .done fs file dest name) := by
      rw [copyEntry, leading_entry hself, ← hway, hnode]
      rfl
    obtain ⟨fs', hcopy, hcontent, -⟩ := copyFile_done hc hw
    rw [hcopy] at hentry
    obtain ⟨r, hrun⟩ := leading_loop hself hentry
    have hread : (leading order file stop : FsEnv C).readDir src = none := rfl
    refine ⟨fs', r, ?_, hcontent⟩
    rw [copyDirContents, hread, hsrc]
    exact hrun
  | cons n way ih =>
    obtain ⟨fuel, rfl⟩ : ∃ k, fuel = k + 1 := ⟨fuel - 1, by omega⟩
    have hfile : file = src ++ [n] ++ way ++ [name] := by rw [hway]; simp
    have hdest : dest ++ [n] ++ way = dest ++ n :: way := by simp
    rw [← hdest] at hw
    obtain ⟨fs', r, hrun, hcontent⟩ := ih hfile hw (by simpa using hfuel)
    have hself : src ++ [n] <+: file := by
      rw [hfile, List.append_assoc]
      exact List.prefix_append _ _
    have hexists : (fs.node (src ++ [n] ++ (way ++ [name]))).isSome = true := by
      rw [← List.append_assoc, ← hfile, content_eq_some_iff.1 hc]
      rfl
    have hdir : fs.node (src ++ [n]) = some .dir := dir_of_below (by simp) hexists
    have hmade : fs.node (dest ++ [n]) = some .dir := dir_above (List.prefix_append _ _) hw.dir
    have hentry : copyEntry empty (leading order file stop)
        (copyDirContents empty (leading order file stop) fuel) src dest fs n =
        some (fs', r) := by
      have hmk : createDirAll none fs (dest ++ [n]) = (fs, .ok ()) := by
        rw [createDirAll, if_pos (canMake_of_dir hmade), makeDirs_of_dir hmade]
      rw [copyEntry, leading_entry hself, hdir]
      dsimp only [leading]
      rw [hmk]
      exact hrun
    obtain ⟨res, hloop⟩ := leading_loop hself hentry
    refine ⟨fs', res, ?_, ?_⟩
    · have hread : (leading order file stop : FsEnv C).readDir src = none := rfl
      have hsrc : fs.node src = some .dir := dir_above (List.prefix_append _ _) hdir
      rw [copyDirContents, hread, hsrc]
      exact hloop
    · rw [← hdest]
      exact hcontent

end Leading

end SkegRigging.Fs
