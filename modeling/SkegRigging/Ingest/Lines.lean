import SkegRigging.Ingest.Chunk
import Mathlib.Data.List.TakeWhile

/-!
# Lines and words of a text

What the two chunkers use of the `str` methods. A text is cut at its newlines by `lines`, at any
white space by `splitWhitespace`, and `join` puts lines together again. All newlines and the `\r`
before one are white space, so the words of a text are those of its lines, in order
(`splitWhitespace_lines`), and joining lines neither makes nor breaks a word
(`splitWhitespace_join`).
-/

set_option autoImplicit false

namespace SkegRigging.Ingest

/-! ## Blank texts -/

/-- `!line.trim().is_empty()`. -/
def nonblank (line : Text) : Bool := !(trim line).isEmpty

theorem nonblank_iff {t : Text} : nonblank t = true ↔ trim t ≠ [] := by
  rw [nonblank, Bool.not_eq_true', Ne, ← List.isEmpty_iff, Bool.not_eq_true]

theorem nonblank_eq_false {t : Text} : nonblank t = false ↔ (trim t).isEmpty = true := by
  rw [nonblank, Bool.not_eq_false']

/-- A text is blank when it is all white space. -/
theorem trim_eq_nil {t : Text} : trim t = [] ↔ ∀ c ∈ t, isWhitespace c = true := by
  rw [trim, List.reverse_eq_nil_iff, List.dropWhile_eq_nil_iff]
  simp only [List.mem_reverse]
  constructor
  · intro h
    rw [← List.dropWhile_eq_nil_iff]
    -- what is left after the leading white space does not begin with white space
    by_contra hne
    have hhead := List.head_dropWhile_not isWhitespace hne
    rw [h _ (List.head_mem hne)] at hhead
    exact absurd hhead Bool.false_ne_true.symm
  · intro h c hc
    exact h c ((List.dropWhile_suffix isWhitespace).subset hc)

theorem isWhitespace_newline : isWhitespace '\n' = true := by decide

theorem isWhitespace_return : isWhitespace '\r' = true := by decide

@[simp] theorem join_nil : join [] = [] := rfl

@[simp] theorem join_singleton (line : Text) : join [line] = line := List.intercalate_singleton

theorem join_cons_cons (line next : Text) (rest : List Text) :
    join (line :: next :: rest) = line ++ '\n' :: join (next :: rest) := by
  rw [join, List.intercalate_cons_cons]
  simp [join]

/-- Joined lines are blank when every one of them is. -/
theorem trim_join_eq_nil {parts : List Text} :
    trim (join parts) = [] ↔ ∀ line ∈ parts, trim line = [] := by
  simp only [trim_eq_nil]
  induction parts with
  | nil => simp
  | cons line parts ih =>
    cases parts with
    | nil => simp
    | cons next rest =>
      rw [join_cons_cons, List.forall_mem_append, List.forall_mem_cons, List.forall_mem_cons, ih]
      simp only [isWhitespace_newline, true_and]

/-! ## Words -/

@[simp] theorem splitWhitespace_nil : splitWhitespace [] = [] := rfl

/-- White space separates the words before it from those after it. -/
theorem splitWhitespace_append_cons {c : Char} (hc : isWhitespace c = true) (xs ys : Text) :
    splitWhitespace (xs ++ c :: ys) = splitWhitespace xs ++ splitWhitespace ys := by
  rw [splitWhitespace, List.splitOnP_append_cons xs ys hc, List.filter_append]
  rfl

theorem splitWhitespace_concat {c : Char} (hc : isWhitespace c = true) (xs : Text) :
    splitWhitespace (xs ++ [c]) = splitWhitespace xs := by
  rw [splitWhitespace_append_cons hc, splitWhitespace_nil, List.append_nil]

theorem splitWhitespace_blank {t : Text} (h : trim t = []) : splitWhitespace t = [] := by
  rw [trim_eq_nil] at h
  induction t with
  | nil => rfl
  | cons c t ih =>
    obtain ⟨hc, ht⟩ := List.forall_mem_cons.1 h
    rw [← List.nil_append (c :: t), splitWhitespace_append_cons hc, ih ht]
    rfl

/-- Leading white space is part of no word. -/
theorem splitWhitespace_blank_append {w : Text} (hw : ∀ c ∈ w, isWhitespace c = true) (ys : Text) :
    splitWhitespace (w ++ ys) = splitWhitespace ys := by
  induction w with
  | nil => rfl
  | cons c w ih =>
    obtain ⟨hc, hrest⟩ := List.forall_mem_cons.1 hw
    rw [List.cons_append, ← List.nil_append (c :: (w ++ ys)), splitWhitespace_append_cons hc,
      splitWhitespace_nil, List.nil_append, ih hrest]

/-- White space between two texts makes and breaks no word. -/
theorem splitWhitespace_append_blank {w : Text} (hne : w ≠ [])
    (hw : ∀ c ∈ w, isWhitespace c = true) (xs ys : Text) :
    splitWhitespace (xs ++ w ++ ys) = splitWhitespace xs ++ splitWhitespace ys := by
  cases w with
  | nil => exact absurd rfl hne
  | cons c w =>
    obtain ⟨hc, hrest⟩ := List.forall_mem_cons.1 hw
    rw [List.append_assoc, List.cons_append, splitWhitespace_append_cons hc,
      splitWhitespace_blank_append hrest]

/-- The words of joined lines are the words of the lines. -/
theorem splitWhitespace_join (parts : List Text) :
    splitWhitespace (join parts) = parts.flatMap splitWhitespace := by
  induction parts with
  | nil => rfl
  | cons line parts ih =>
    cases parts with
    | nil => simp
    | cons next rest =>
      rw [join_cons_cons, splitWhitespace_append_cons isWhitespace_newline, ih]
      rfl

/-! ## Lines -/

/-- A text without a newline is one piece. -/
theorem splitInclusive_of_not_mem {t : Text} (hne : t ≠ []) (h : '\n' ∉ t) :
    splitInclusive t = [t] := by
  induction t with
  | nil => exact absurd rfl hne
  | cons c t ih =>
    obtain ⟨hc, ht⟩ := not_or.1 (mt List.mem_cons.2 h)
    rw [splitInclusive, if_neg (Ne.symm hc)]
    cases t with
    | nil => rfl
    | cons d t => rw [ih (List.cons_ne_nil d t) ht]

/-- The first newline ends the first piece. -/
theorem splitInclusive_append_newline {line : Text} (h : '\n' ∉ line) (rest : Text) :
    splitInclusive (line ++ '\n' :: rest) = (line ++ ['\n']) :: splitInclusive rest := by
  induction line with
  | nil => rw [List.nil_append, splitInclusive, if_pos rfl]; rfl
  | cons c line ih =>
    obtain ⟨hc, hline⟩ := not_or.1 (mt List.mem_cons.2 h)
    rw [List.cons_append, splitInclusive, if_neg (Ne.symm hc), ih hline]
    rfl

/-- A text is empty, or its only line, or a line with its newline before a further text. -/
theorem line_induction {motive : Text → Prop} (nil : motive [])
    (last : ∀ line, line ≠ [] → '\n' ∉ line → motive line)
    (cons : ∀ line rest, '\n' ∉ line → motive rest → motive (line ++ '\n' :: rest)) (text : Text) :
    motive text := by
  induction hlen : text.length using Nat.strong_induction_on generalizing text with
  | _ n ih =>
    by_cases hmem : '\n' ∈ text
    · obtain ⟨line, rest, rfl, hline⟩ := List.eq_append_cons_of_mem hmem
      apply cons line rest hline
      apply ih rest.length _ rest rfl
      simp only [List.length_append, List.length_cons] at hlen
      omega
    · by_cases hne : text = []
      · rw [hne]
        exact nil
      · exact last text hne hmem

theorem eq_of_stripSuffix {c : Char} {t line : Text} (h : stripSuffix c t = some line) :
    t = line ++ [c] := by
  unfold stripSuffix at h
  split at h
  · rename_i hlast
    rw [← Option.some.inj h]
    exact (List.dropLast_append_getLast? c hlast).symm
  · simp at h

/-- A line ending belongs to no word. -/
theorem splitWhitespace_stripLineEnding (piece : Text) :
    splitWhitespace (stripLineEnding piece) = splitWhitespace piece := by
  unfold stripLineEnding
  split
  · rfl
  · rename_i line hline
    rw [eq_of_stripSuffix hline, splitWhitespace_concat isWhitespace_newline]
    cases hreturn : stripSuffix '\r' line with
    | none => rfl
    | some short =>
      rw [Option.getD_some, eq_of_stripSuffix hreturn, splitWhitespace_concat isWhitespace_return]

/-- The words of a text are the words of its lines. -/
theorem splitWhitespace_lines (text : Text) :
    (lines text).flatMap splitWhitespace = splitWhitespace text := by
  induction text using line_induction with
  | nil => rfl
  | last line hne hline =>
    rw [lines, splitInclusive_of_not_mem hne hline]
    simp [splitWhitespace_stripLineEnding]
  | cons line rest hline ih =>
    rw [lines, splitInclusive_append_newline hline, List.map_cons, List.flatMap_cons,
      splitWhitespace_stripLineEnding, splitWhitespace_concat isWhitespace_newline,
      splitWhitespace_append_cons isWhitespace_newline]
    exact congrArg _ ih

/-- Each line takes at least one character. -/
theorem length_lines_le (text : Text) : (lines text).length ≤ text.length := by
  rw [lines, List.length_map]
  induction text using line_induction with
  | nil => exact Nat.le_refl 0
  | last line hne hline =>
    rw [splitInclusive_of_not_mem hne hline, List.length_singleton]
    exact List.length_pos_of_ne_nil hne
  | cons line rest hline ih =>
    rw [splitInclusive_append_newline hline, List.length_cons, List.length_append, List.length_cons]
    omega

end SkegRigging.Ingest
