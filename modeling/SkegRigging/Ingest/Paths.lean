import Mathlib.Data.List.Forall2
import SkegRigging.Ingest.Tree

/-!
# Paths below a root

Every path that `walk` forms is the root joined with names, one for each directory on the way
(`PathBuf.joins`). The spelling of a directory begins the spelling of everything below it, so an
exclude that is found in a directory is found below it as well (`excluded_joins`); and when the
names are those of directory entries, the relative path in a tag can be taken apart into them
(`segments_relpath`).
-/

set_option autoImplicit false

namespace SkegRigging

/-- `Path::join` with each of the names in turn. -/
def PathBuf.joins (p : PathBuf) (names : List String) : PathBuf :=
  { p with components := p.components ++ names }

/-- `Path::join` with a path: an absolute one replaces `p`. -/
def PathBuf.joinPath (p q : PathBuf) : PathBuf := if q.absolute then q else p.joins q.components

/-- The names that a relative path spells. -/
def segments (rel : String) : List String := (rel.toList.splitOn '/').map String.ofList

/-- `Path::join` with a relative path, given by its spelling. -/
def PathBuf.joinStr (p : PathBuf) (rel : String) : PathBuf := p.joins (segments rel)

/-- What the name of a directory entry can be. -/
structure ProperName (name : String) : Prop where
  nonempty : name ≠ ""
  noSlash : '/' ∉ name.toList
  notDot : name ≠ "."
  notDotDot : name ≠ ".."

instance ProperName.decidable (name : String) : Decidable (ProperName name) :=
  decidable_of_iff (name ≠ "" ∧ '/' ∉ name.toList ∧ name ≠ "." ∧ name ≠ "..")
    ⟨fun h => ⟨h.1, h.2.1, h.2.2.1, h.2.2.2⟩, fun h => ⟨h.1, h.2, h.3, h.4⟩⟩

namespace PathBuf

variable {p q : PathBuf} {names names' : List String} {name : String}

@[simp] theorem joins_nil (p : PathBuf) : p.joins [] = p := by
  rw [joins, List.append_nil]

@[simp] theorem joins_cons (p : PathBuf) (name : String) (names : List String) :
    p.joins (name :: names) = (p.join name).joins names := by
  rw [joins, join, joins, List.append_assoc, List.singleton_append]

theorem joins_append (p : PathBuf) (names names' : List String) :
    p.joins (names ++ names') = (p.joins names).joins names' := by
  rw [joins, joins, joins, List.append_assoc]

theorem join_eq_joins (p : PathBuf) (name : String) : p.join name = p.joins [name] := rfl

theorem joins_concat (p : PathBuf) (names : List String) (name : String) :
    p.joins (names ++ [name]) = (p.joins names).join name := joins_append p names [name]

theorem joins_inj : p.joins names = p.joins names' ↔ names = names' := by
  refine ⟨fun h => ?_, fun h => by rw [h]⟩
  exact List.append_cancel_left (congrArg components h)

/-- The names below a base are what `strip_prefix` leaves. -/
theorem stripPrefix_joins (p : PathBuf) (names : List String) :
    (p.joins names).stripPrefix p = some ⟨false, names⟩ := by
  have habsolute : p.absolute = (p.joins names).absolute := rfl
  have hbelow : p.components <+: p.components ++ names := List.prefix_append _ _
  rw [stripPrefix, if_pos habsolute, joins, if_pos hbelow, List.drop_left]

/-- A relative base is no prefix of an absolute path. -/
theorem stripPrefix_of_relative (hq : q.absolute = true) (hp : p.absolute = false)
    (hne : p.components ≠ []) : q.stripPrefix p = none := by
  rw [stripPrefix, hp, hq, if_neg Bool.false_ne_true, if_neg]
  rintro ⟨-, hnil⟩
  exact hne hnil

theorem fileName_join (hname : ProperName name) (p : PathBuf) :
    (p.join name).fileName = some name := by
  rw [fileName, join, List.getLast?_concat]
  apply if_neg
  rintro (hdot | hdots)
  · exact hname.notDot hdot
  · exact hname.notDotDot hdots

/-- The file name and the extension depend on the last component alone. -/
theorem extension_eq (h : p.components.getLast? = q.components.getLast?) :
    p.extension = q.extension := by
  have hname : p.fileName = q.fileName := by rw [fileName, fileName, h]
  rw [extension, extension, hname]

/-! ## How a path is spelled -/

/-- The spelling of a directory begins the spelling of what is below it. -/
theorem display_prefix_joins (p : PathBuf) (names : List String) :
    p.display.toList <+: (p.joins names).display.toList := by
  rw [display, display, String.toList_append, String.toList_append, joins]
  refine (List.prefix_append_right_inj _).2 ?_
  dsimp only
  by_cases hp : p.components = []
  · rw [hp, String.intercalate_nil, String.toList_empty]
    exact List.nil_prefix
  · by_cases hnames : names = []
    · rw [hnames, List.append_nil]
    · rw [String.intercalate_append_of_ne_nil hp hnames, String.toList_append,
        String.toList_append, List.append_assoc]
      exact List.prefix_append _ _

/-- Names as they follow a directory in the spelling of a path. -/
def slashed (names : List String) : List Char := names.flatMap fun name => '/' :: name.toList

theorem slashed_intercalate (hne : names ≠ []) :
    slashed names = '/' :: ("/".intercalate names).toList := by
  induction names with
  | nil => exact absurd rfl hne
  | cons name names ih =>
    have hcons : slashed (name :: names) = '/' :: name.toList ++ slashed names := rfl
    cases names with
    | nil => rw [hcons, String.intercalate_singleton, slashed, List.flatMap_nil, List.append_nil]
    | cons next names =>
      rw [hcons, ih (List.cons_ne_nil _ _), String.intercalate_cons_cons]
      simp [String.toList_append]

/-- Each name takes at least its slash. -/
theorem length_le_slashed (names : List String) : names.length ≤ (slashed names).length := by
  induction names with
  | nil => exact Nat.le_refl 0
  | cons name names ih =>
    have hcons : slashed (name :: names) = '/' :: name.toList ++ slashed names := rfl
    rw [hcons, List.length_append, List.length_cons, List.length_cons]
    omega

theorem display_joins (hp : p.components ≠ []) (names : List String) :
    (p.joins names).display.toList = p.display.toList ++ slashed names := by
  by_cases hnames : names = []
  · rw [hnames, joins_nil, slashed, List.flatMap_nil, List.append_nil]
  · rw [slashed_intercalate hnames, display, display, joins, String.toList_append,
      String.toList_append, String.intercalate_append_of_ne_nil hp hnames]
    simp [String.toList_append]

/-- A relative path spells its names. -/
theorem segments_display (hne : names ≠ []) (h : ∀ name ∈ names, '/' ∉ name.toList) :
    segments (display ⟨false, names⟩) = names := by
  have hdisplay : (display ⟨false, names⟩).toList =
      ['/'].intercalate (names.map String.toList) := by
    rw [display, if_neg Bool.false_ne_true, String.empty_append, String.toList_intercalate]
    rfl
  rw [segments, hdisplay, List.splitOn_intercalate '/' _ (by simpa using hne), List.map_map]
  · simp
  · simpa using h

end PathBuf

namespace Ingest

variable {os : Os} {opts : IngestOptions} {root p : PathBuf} {names names' : List String}

/-! ## Excludes -/

/-- A path below an excluded directory is excluded. -/
theorem excluded_joins (h : excluded opts p = true) (names : List String) :
    excluded opts (p.joins names) = true := by
  rw [excluded, List.any_eq_true] at h ⊢
  obtain ⟨pattern, hmem, hfound⟩ := h
  refine ⟨pattern, hmem, ?_⟩
  rw [contains, decide_eq_true_eq] at hfound ⊢
  exact hfound.trans (p.display_prefix_joins names).isInfix

/-- What contains no exclude is in a directory that contains none. -/
theorem not_excluded_of_joins (h : excluded opts (p.joins names) = false) :
    excluded opts p = false := by
  rw [← Bool.not_eq_true]
  intro hexcluded
  rw [excluded_joins hexcluded names] at h
  exact Bool.false_ne_true h.symm

theorem accepts_eq (file : PathBuf) (opts : IngestOptions) :
    accepts file opts = (!excluded opts file && (opts.exts.isEmpty ||
      (file.extension.any fun ext => opts.exts.any (· == ext)))) := by
  rw [accepts, excluded]
  cases opts.excludes.any (contains file.display) with
  | true => rfl
  | false =>
    cases opts.exts.isEmpty with
    | true => rfl
    | false => cases file.extension <;> rfl

theorem excluded_of_accepts (h : accepts p opts = true) : excluded opts p = false := by
  rw [accepts_eq, Bool.and_eq_true, Bool.not_eq_true'] at h
  exact h.1

/-! ## The relative path in a tag -/

theorem relpath_joins (root : PathBuf) (names : List String) :
    relpath root (root.joins names) = PathBuf.display ⟨false, names⟩ := by
  rw [relpath, PathBuf.stripPrefix_joins]

/-- The path part of a tag spells the names below the root. -/
theorem segments_relpath (root : PathBuf) (hne : names ≠ [])
    (h : ∀ name ∈ names, ProperName name) :
    segments (relpath root (root.joins names)) = names := by
  rw [relpath_joins]
  exact PathBuf.segments_display hne fun name hname => (h name hname).noSlash

/-- Different files below a root have different relative paths. -/
theorem relpath_inj (hne : names ≠ []) (hne' : names' ≠ []) (h : ∀ name ∈ names, ProperName name)
    (h' : ∀ name ∈ names', ProperName name)
    (heq : relpath root (root.joins names) = relpath root (root.joins names')) :
    names = names' := by
  rw [← segments_relpath root hne h, heq, segments_relpath root hne' h']

theorem relpath_ne_empty (hne : names ≠ []) (h : ∀ name ∈ names, ProperName name) :
    relpath root (root.joins names) ≠ "" := by
  intro hempty
  have hsegments := segments_relpath root hne h
  rw [hempty] at hsegments
  -- the empty spelling is that of one empty name
  have hblank : segments "" = [""] := by decide
  rw [hblank] at hsegments
  subst hsegments
  exact (h "" List.mem_cons_self).nonempty rfl

end Ingest

end SkegRigging
