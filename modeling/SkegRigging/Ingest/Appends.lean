import SkegRigging.Ingest.Paragraphs
import SkegRigging.Ingest.Windows

/-!
# What appending to a text does to its chunks

A file that is only written at its end, such as a journal, keeps its lines but the last one, which
may become longer (`lines_append`). Both chunkers read the lines once, from the first on, and what
they have put out stays as it is. So the chunks before the last one stay, with their texts and their
line numbers, and no chunk goes away (`chunk_append`).
-/

set_option autoImplicit false

namespace SkegRigging.Ingest

/-! ## Lines -/

/-- The lines of a text and those of a longer one: the last line may be longer, and further ones may
follow it. -/
def Grown (old new : List Text) : Prop :=
  old = [] ∨ ∃ done last next rest, old = done ++ [last] ∧ new = done ++ next :: rest ∧
    (nonblank last = true → nonblank next = true)

theorem nonblank_iff_exists {t : Text} :
    nonblank t = true ↔ ∃ c ∈ t, isWhitespace c = false := by
  rw [nonblank_iff, Ne, trim_eq_nil]
  push Not
  simp only [Bool.not_eq_true, ne_eq]

/-- A line ending is blank. -/
theorem nonblank_stripLineEnding {piece : Text} (h : nonblank piece = true) :
    nonblank (stripLineEnding piece) = true := by
  obtain ⟨c, hc, hblack⟩ := nonblank_iff_exists.1 h
  refine nonblank_iff_exists.2 ⟨c, ?_, hblack⟩
  unfold stripLineEnding
  split
  · exact hc
  · rename_i line hline
    rw [eq_of_stripSuffix hline] at hc
    have hmem : c ∈ line := by
      rcases List.mem_append.1 hc with hc | hc
      · exact hc
      · rw [List.mem_singleton.1 hc, isWhitespace_newline] at hblack
        exact absurd hblack Bool.false_ne_true.symm
    cases hreturn : stripSuffix '\r' line with
    | none => exact hmem
    | some short =>
      rw [eq_of_stripSuffix hreturn] at hmem
      rcases List.mem_append.1 hmem with hmem | hmem
      · exact hmem
      · rw [List.mem_singleton.1 hmem, isWhitespace_return] at hblack
        exact absurd hblack Bool.false_ne_true.symm

theorem nonblank_append {t : Text} (h : nonblank t = true) (u : Text) :
    nonblank (t ++ u) = true := by
  obtain ⟨c, hc, hblack⟩ := nonblank_iff_exists.1 h
  exact nonblank_iff_exists.2 ⟨c, List.mem_append_left u hc, hblack⟩

theorem stripLineEnding_of_not_mem {line : Text} (h : '\n' ∉ line) :
    stripLineEnding line = line := by
  unfold stripLineEnding
  split
  · rfl
  · rename_i short hshort
    rw [eq_of_stripSuffix hshort] at h
    exact absurd (List.mem_append_right _ List.mem_cons_self) h

/-- What follows in the line of `line` makes it longer. -/
theorem lines_last_append {line : Text} (hne : line ≠ []) (hline : '\n' ∉ line) (b : Text) :
    ∃ next rest, lines (line ++ b) = next :: rest ∧
      (nonblank line = true → nonblank next = true) := by
  by_cases hmem : '\n' ∈ b
  · obtain ⟨more, rest, rfl, hmore⟩ := List.eq_append_cons_of_mem hmem
    refine ⟨stripLineEnding (line ++ more ++ ['\n']), lines rest, ?_, fun h => ?_⟩
    · have hfirst : '\n' ∉ line ++ more := fun h => (List.mem_append.1 h).elim hline hmore
      rw [lines, ← List.append_assoc, splitInclusive_append_newline hfirst]
      rfl
    · exact nonblank_stripLineEnding (nonblank_append (nonblank_append h more) _)
  · have hone : '\n' ∉ line ++ b := fun h => (List.mem_append.1 h).elim hline hmem
    refine ⟨line ++ b, [], ?_, fun h => nonblank_append h b⟩
    rw [lines, splitInclusive_of_not_mem (List.append_ne_nil_of_left_ne_nil hne b) hone,
      List.map_singleton, stripLineEnding_of_not_mem hone]

theorem lines_append (p b : Text) : Grown (lines p) (lines (p ++ b)) := by
  induction p using line_induction with
  | nil => exact Or.inl rfl
  | last line hne hline =>
    obtain ⟨next, rest, hnew, hnext⟩ := lines_last_append hne hline b
    refine Or.inr ⟨[], line, next, rest, ?_, hnew, hnext⟩
    rw [lines, splitInclusive_of_not_mem hne hline, List.map_singleton,
      stripLineEnding_of_not_mem hline]
    rfl
  | cons line p hline ih =>
    have hcons : ∀ t, lines (line ++ '\n' :: t) = stripLineEnding (line ++ ['\n']) :: lines t := by
      intro t
      rw [lines, splitInclusive_append_newline hline]
      rfl
    rw [List.append_assoc, List.cons_append, hcons, hcons]
    rcases ih with hnil | ⟨done, last, next, rest, hold, hnew, hnext⟩
    · -- the text ended with the newline, so this line stays
      rw [hnil]
      exact Or.inr ⟨[], _, _, lines (p ++ b), rfl, rfl, id⟩
    · rw [hold, hnew]
      exact Or.inr ⟨_ :: done, last, next, rest, rfl, rfl, hnext⟩

/-! ## Paragraphs -/

/-- The chunks so far, with that of the open paragraph. -/
def Paragraphs.count (s : Paragraphs) : Nat := s.out.length + if s.buf = [] then 0 else 1

/-- The chunks of `s` stay in `t`, and its open paragraph has not gone away. -/
structure Paragraphs.Ahead (s t : Paragraphs) : Prop where
  out : s.out <+: t.out
  count : s.count ≤ t.count

/-- The lines of the open paragraph are not blank. -/
def Paragraphs.Inside (s : Paragraphs) : Prop := ∀ line ∈ s.buf, nonblank line = true

/-- The end of the open paragraph adds one chunk. -/
theorem Paragraphs.Inside.closed_eq {s : Paragraphs} (h : s.Inside) (hi : Nat) :
    s.buf = [] ∧ s.closed hi = s.out ∨ s.buf ≠ [] ∧ ∃ c, s.closed hi = s.out ++ [c] := by
  by_cases hbuf : s.buf = []
  · exact Or.inl ⟨hbuf, if_pos (List.isEmpty_iff.2 hbuf)⟩
  · refine Or.inr ⟨hbuf, ⟨join s.buf, s.start, hi⟩, ?_⟩
    rw [closed, if_neg (by rwa [List.isEmpty_iff]), pushPara_eq hbuf h]

theorem Paragraphs.Inside.length_closed {s : Paragraphs} (h : s.Inside) (hi : Nat) :
    (s.closed hi).length = s.count := by
  rcases h.closed_eq hi with ⟨hbuf, hclosed⟩ | ⟨hbuf, c, hclosed⟩
  · rw [hclosed, count, if_pos hbuf, Nat.add_zero]
  · rw [hclosed, count, if_neg hbuf, List.length_append, List.length_singleton]

theorem Paragraphs.Inside.out_closed {s : Paragraphs} (h : s.Inside) (hi : Nat) :
    s.out <+: s.closed hi := by
  rcases h.closed_eq hi with ⟨-, hclosed⟩ | ⟨-, c, hclosed⟩
  · exact ⟨[], by rw [hclosed, List.append_nil]⟩
  · exact ⟨[c], hclosed.symm⟩

theorem Paragraphs.Inside.dropLast_closed {s : Paragraphs} (h : s.Inside) (hi : Nat) :
    (s.closed hi).dropLast <+: s.out := by
  rcases h.closed_eq hi with ⟨-, hclosed⟩ | ⟨-, c, hclosed⟩
  · rw [hclosed]
    exact List.dropLast_prefix _
  · rw [hclosed, List.dropLast_concat]

/-- One iteration. -/
theorem Paragraphs.Inside.next {s : Paragraphs} (h : s.Inside) (line : Text) (i : Nat) :
    (s.next line i).Inside ∧ s.Ahead (s.next line i) := by
  cases hline : nonblank line with
  | false =>
    rw [Paragraphs.next_blank hline]
    refine ⟨fun _ hmem => absurd hmem List.not_mem_nil, h.out_closed i, ?_⟩
    rw [← h.length_closed i]
    exact Nat.le_add_right _ _
  | true =>
    rw [Paragraphs.next_nonblank_line hline]
    refine ⟨fun l hl => ?_, List.prefix_refl _, ?_⟩
    · rcases List.mem_append.1 hl with hl | hl
      · exact h l hl
      · rw [List.mem_singleton.1 hl, hline]
    · simp only [count]
      split <;> simp

/-- The whole loop. -/
theorem Paragraphs.Inside.loop {s : Paragraphs} (h : s.Inside) (numbered : List (Text × Nat)) :
    (s.loop numbered).Inside ∧ s.Ahead (s.loop numbered) := by
  induction numbered generalizing s with
  | nil => exact ⟨h, List.prefix_refl _, Nat.le_refl _⟩
  | cons l numbered ih =>
    obtain ⟨hnext, hahead⟩ := h.next l.1 l.2
    obtain ⟨hin, hloop⟩ := ih hnext
    exact ⟨hin, hahead.out.trans hloop.out, Nat.le_trans hahead.count hloop.count⟩

theorem Paragraphs.loop_append (s : Paragraphs) (xs ys : List (Text × Nat)) :
    s.loop (xs ++ ys) = (s.loop xs).loop ys := List.foldl_append

/-- The end of the text after `last`, against a line in its place that may be longer. -/
theorem Paragraphs.Inside.next_closed {s : Paragraphs} (h : s.Inside) {last next : Text}
    (hnext : nonblank last = true → nonblank next = true) (i : Nat) :
    ((s.next last i).closed (i + 1)).dropLast <+: s.out ∧
      ((s.next last i).closed (i + 1)).length ≤ (s.next next i).count := by
  have hlast := (h.next last i).1
  have hlen := hlast.length_closed (i + 1)
  cases hline : nonblank last with
  | false =>
    -- the blank line ends the paragraph before it
    have hclosed : (s.next last i).closed (i + 1) = s.closed i := by
      rw [Paragraphs.next_blank hline]
      rfl
    rw [hclosed, h.length_closed]
    exact ⟨h.dropLast_closed i, (h.next next i).2.count⟩
  | true =>
    rw [hlen, Paragraphs.next_nonblank_line (hnext hline)]
    rw [Paragraphs.next_nonblank_line hline] at hlast ⊢
    refine ⟨hlast.dropLast_closed (i + 1), ?_⟩
    simp [count]

theorem paragraphs_append (p b : Text) :
    (paragraphs p).dropLast <+: paragraphs (p ++ b) ∧
      (paragraphs p).length ≤ (paragraphs (p ++ b)).length := by
  rcases lines_append p b with hnil | ⟨done, last, next, rest, hold, hnew, hnext⟩
  · have hempty : paragraphs p = [] := by
      rw [paragraphs_closed, hnil]
      rfl
    rw [hempty]
    exact ⟨List.nil_prefix, Nat.zero_le _⟩
  · have hstart : Paragraphs.Inside ⟨[], [], 1⟩ := fun _ hmem => absurd hmem List.not_mem_nil
    -- after the common lines the two loops are in one state
    obtain ⟨hin, -⟩ := hstart.loop done.zipIdx
    obtain ⟨hdrop, hlen⟩ := hin.next_closed hnext done.length
    obtain ⟨hafter, hahead⟩ := hin.next next done.length
    obtain ⟨hend, hloop⟩ := hafter.loop (rest.zipIdx (done.length + 1))
    have hp : paragraphs p = (((Paragraphs.loop ⟨[], [], 1⟩ done.zipIdx).next last
        done.length).closed (done.length + 1)) := by
      rw [paragraphs_closed, hold, List.zipIdx_append, Paragraphs.loop_append, Nat.zero_add,
        List.length_append, List.length_singleton]
      rfl
    have hpb : paragraphs (p ++ b) = (((Paragraphs.loop ⟨[], [], 1⟩ done.zipIdx).next next
        done.length).loop (rest.zipIdx (done.length + 1))).closed (lines (p ++ b)).length := by
      rw [paragraphs_closed, hnew, List.zipIdx_append, Paragraphs.loop_append, Nat.zero_add]
      rfl
    rw [hp, hpb, hend.length_closed]
    exact ⟨hdrop.trans (hahead.out.trans (hloop.out.trans (hend.out_closed _))),
      Nat.le_trans hlen hloop.count⟩

/-! ## Line windows -/

section Windows

variable {done rest : List Text} {last next : Text} {win step : Nat}

theorem length_windowChunk_le (lines : List Text) (i hi : Nat) :
    (windowChunk lines i hi).length ≤ 1 := by
  simp only [windowChunk]
  split <;> simp

/-- A window that the old text has in full is the same in the new one. -/
theorem windowChunk_append {i hi : Nat} (h : hi ≤ done.length) (xs ys : List Text) :
    windowChunk (done ++ xs) i hi = windowChunk (done ++ ys) i hi := by
  rw [windowChunk, windowChunk, List.take_append_of_le_length h, List.take_append_of_le_length h]

variable (rest) in
/-- A line that is not blank does not become blank. -/
theorem nonblank_getElem (hnext : nonblank last = true → nonblank next = true) {j : Nat}
    (hj : j < (done ++ [last]).length) (h : nonblank (done ++ [last])[j] = true) :
    ∃ hj' : j < (done ++ next :: rest).length, nonblank (done ++ next :: rest)[j] = true := by
  rw [List.length_append, List.length_singleton] at hj
  refine ⟨by rw [List.length_append, List.length_cons]; omega, ?_⟩
  by_cases hdone : j < done.length
  · rw [List.getElem_append_left hdone] at h ⊢
    exact h
  · obtain rfl : j = done.length := by omega
    simp only [List.getElem_append_right (Nat.le_refl _), Nat.sub_self,
      List.getElem_cons_zero] at h ⊢
    exact hnext h

/-- Nor does the last window. -/
theorem nonblank_window_append (hnext : nonblank last = true → nonblank next = true) {i : Nat}
    (hreach : (done ++ [last]).length ≤ i + win)
    (h : nonblank (window (done ++ [last]) win i).text = true) :
    nonblank (window (done ++ next :: rest) win i).text = true := by
  rw [nonblank_iff, window] at h
  dsimp only at h
  rw [Ne, trim_join_eq_nil] at h
  push Not at h
  obtain ⟨line, hmem, hline⟩ := h
  obtain ⟨k, hk, rfl⟩ := List.mem_iff_getElem.1 hmem
  rw [List.length_drop, List.length_take] at hk
  rw [List.getElem_drop, List.getElem_take] at hline
  obtain ⟨hj, hblack⟩ := nonblank_getElem rest hnext (by omega) (nonblank_iff.2 hline)
  exact nonblank_window hj hblack (Nat.le_add_right i k) (by omega)

theorem dropLast_append_of_dropLast {α : Type} {xs ys zs : List α} (h : ys.dropLast <+: zs) :
    (xs ++ ys).dropLast <+: xs ++ zs := by
  by_cases hys : ys = []
  · rw [hys, List.append_nil]
    exact (List.dropLast_prefix xs).trans (List.prefix_append xs zs)
  · rw [List.dropLast_append_of_ne_nil hys]
    exact (List.prefix_append_right_inj xs).2 h

theorem windowsFrom_append (hnext : nonblank last = true → nonblank next = true) (fuel i : Nat) :
    (windowsFrom (done ++ [last]) win step fuel i).dropLast <+:
        windowsFrom (done ++ next :: rest) win step fuel i ∧
      (windowsFrom (done ++ [last]) win step fuel i).length ≤
        (windowsFrom (done ++ next :: rest) win step fuel i).length := by
  induction fuel generalizing i with
  | zero => exact ⟨List.nil_prefix, Nat.le_refl 0⟩
  | succ fuel ih =>
    have hold : (done ++ [last]).length = done.length + 1 := by simp
    have hnew : (done ++ next :: rest).length = done.length + 1 + rest.length := by
      rw [List.length_append, List.length_cons]
      omega
    rw [windowsFrom_succ, windowsFrom_succ]
    by_cases hi : i < (done ++ [last]).length
    · rw [if_pos hi, if_pos (by omega : i < (done ++ next :: rest).length)]
      by_cases hreach : (done ++ [last]).length ≤ i + win
      · rw [if_pos (Nat.min_eq_right hreach)]
        -- the last window: the one in its place is at least as long
        have hone := length_windowChunk_le (done ++ [last]) i
          (min (i + win) (done ++ [last]).length)
        have hlen : (windowChunk (done ++ [last]) i
            (min (i + win) (done ++ [last]).length)).length ≤
            (windowChunk (done ++ next :: rest) i
              (min (i + win) (done ++ next :: rest).length)).length := by
          rw [windowChunk_eq, windowChunk_eq, List.filter_singleton, List.filter_singleton]
          cases hblack : nonblank (window (done ++ [last]) win i).text with
          | false => exact Nat.zero_le _
          | true =>
            rw [nonblank_window_append hnext hreach hblack]
            exact Nat.le_refl 1
        constructor
        · have hnone : (windowChunk (done ++ [last]) i
              (min (i + win) (done ++ [last]).length)).dropLast = [] := by
            rw [← List.length_eq_zero_iff, List.length_dropLast]
            omega
          rw [hnone]
          exact List.nil_prefix
        · split
          · exact hlen
          · exact Nat.le_trans hlen (List.prefix_append _ _).length_le
      · obtain ⟨hdrop, hlen⟩ := ih (i + step)
        have hwindow : windowChunk (done ++ [last]) i (i + win) =
            windowChunk (done ++ next :: rest) i (i + win) :=
          windowChunk_append (by omega) [last] (next :: rest)
        rw [if_neg (by omega), if_neg (by omega), Nat.min_eq_left (by omega),
          Nat.min_eq_left (by omega), hwindow, List.length_append, List.length_append]
        exact ⟨dropLast_append_of_dropLast hdrop, Nat.add_le_add_left hlen _⟩
    · rw [if_neg hi]
      exact ⟨List.nil_prefix, Nat.zero_le _⟩

end Windows

theorem lineWindows_append (p b : Text) {win step : Nat} (hstep : 0 < step) :
    (lineWindows p win step).dropLast <+: lineWindows (p ++ b) win step ∧
      (lineWindows p win step).length ≤ (lineWindows (p ++ b) win step).length := by
  rcases lines_append p b with hnil | ⟨done, last, next, rest, hold, hnew, hnext⟩
  · have hempty : lineWindows p win step = [] := by
      rw [lineWindows, hnil]
      rfl
    rw [hempty]
    exact ⟨List.nil_prefix, Nat.zero_le _⟩
  · -- the iterations of the longer text are enough for both
    have hle : (lines p).length ≤ (lines (p ++ b)).length := by
      rw [hold, hnew]
      simp
    rw [← lineWindows_eq hstep hle, lineWindows, hold, hnew]
    exact windowsFrom_append hnext _ 0

/-- Text that is appended to a file leaves all of its chunks but the last as they are, with their
texts and their lines, at the places that they have; and there are no fewer chunks than before. -/
theorem chunk_append (p b : Text) (mode : ChunkMode) :
    (chunk p mode).dropLast <+: chunk (p ++ b) mode ∧
      (chunk p mode).length ≤ (chunk (p ++ b) mode).length := by
  cases mode with
  | paragraph => exact paragraphs_append p b
  | lines win step => exact lineWindows_append p b (Nat.le_max_right step 1)

/-- Only the last chunk of the old text changes, here in its text. -/
example :
    chunk "one\n\ntwo".toList .paragraph = [⟨"one".toList, 1, 1⟩, ⟨"two".toList, 3, 3⟩] ∧
      chunk "one\n\ntwo more\n\nthree".toList .paragraph =
        [⟨"one".toList, 1, 1⟩, ⟨"two more".toList, 3, 3⟩, ⟨"three".toList, 5, 5⟩] := by
  decide +kernel

end SkegRigging.Ingest
