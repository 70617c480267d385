import Mathlib.Order.Interval.Finset.Nat
import SkegRigging.Ingest.Lines
import SkegRigging.Ingest.Tree

/-!
# What the line windows of a text are

The loop of `line_windows` takes the windows of `win` lines that begin at every `step`-th line, and
stops at the first one that reaches the last line (`windowsFrom_windows`). When a step is no longer
than a window, as with `ChunkMode::for_ext`, the windows cover the text with a fixed overlap, and
none is redundant (`chunk_lines_exact`).

`Checked.chunk` is the same loop over machine integers: a sum that overflows, a slice out of range
and an iteration too many are faults. A text shorter than `2 ^ 63` bytes raises none, whatever `win`
and `step` are (`chunk_lines_checked`).
-/

set_option autoImplicit false

namespace SkegRigging.Ingest

/-! ## The windows -/

/-- The window of `win` lines after the first `i`, clipped to the last line. -/
def window (lines : List Text) (win i : Nat) : Chunk :=
  let hi := min (i + win) lines.length
  ⟨join ((lines.take hi).drop i), i + 1, hi⟩

/-- The numbers of the lines of a chunk. -/
def Chunk.span (c : Chunk) : Finset Nat := Finset.Icc c.lineLo c.lineHi

/-- The windows at the lines `0`, `step`, `2 * step` and so on, `count` of them, go as far as the
first one that reaches the last line. -/
structure Reaching (lines : List Text) (win step start count : Nat) : Prop where
  none : count = 0 ↔ lines.length ≤ start
  begins : ∀ k < count, start + k * step < lines.length
  last : ∀ k < count, lines.length ≤ start + k * step + win ↔ k + 1 = count

theorem windowChunk_eq (lines : List Text) (win i : Nat) :
    windowChunk lines i (min (i + win) lines.length) =
      [window lines win i].filter fun c => nonblank c.text := by
  rw [windowChunk, window, List.filter_singleton, nonblank]
  cases (trim (join ((lines.take (min (i + win) lines.length)).drop i))).isEmpty <;> rfl

section Loop

variable {lines : List Text} {win step : Nat}

/-- The window at `i` reaches the last line: it is the only one. -/
theorem Reaching.single {i : Nat} (hi : i < lines.length) (hreach : lines.length ≤ i + win) :
    Reaching lines win step i 1 := by
  refine ⟨by omega, fun k hk => ?_, fun k hk => ?_⟩
  · obtain rfl : k = 0 := by omega
    omega
  · obtain rfl : k = 0 := by omega
    omega

/-- The window at `i` does not reach the last line: the others are those from `i + step` on. -/
theorem Reaching.cons {i count : Nat} (hi : i + win < lines.length) (hstep : step ≤ win)
    (h : Reaching lines win step (i + step) count) : Reaching lines win step i (count + 1) := by
  have hshift : ∀ k, i + (k + 1) * step = i + step + k * step := fun k => by
    rw [Nat.succ_mul]
    omega
  have hcount : count ≠ 0 := fun hzero => by
    have hend := h.none.1 hzero
    omega
  refine ⟨by omega, fun k hk => ?_, fun k hk => ?_⟩
  · cases k with
    | zero => omega
    | succ k =>
      rw [hshift]
      exact h.begins k (by omega)
  · cases k with
    | zero => omega
    | succ k =>
      rw [hshift, h.last k (by omega)]
      omega

/-- The loop from the cursor `i` gives the windows at `i`, `i + step` and so on that are not blank,
as far as the first one that reaches the last line. -/
theorem windowsFrom_windows (lines : List Text) (hpos : 0 < step) (hstep : step ≤ win)
    {fuel i : Nat} (hfuel : lines.length - i ≤ fuel) :
    ∃ count, Reaching lines win step i count ∧
      windowsFrom lines win step fuel i =
        ((List.range count).map fun k => window lines win (i + k * step)).filter
          fun c => nonblank c.text := by
  induction fuel generalizing i with
  | zero =>
    refine ⟨0, ⟨by omega, by omega, by omega⟩, rfl⟩
  | succ fuel ih =>
    rw [windowsFrom_succ, windowChunk_eq]
    by_cases hi : i < lines.length
    · rw [if_pos hi]
      by_cases hreach : lines.length ≤ i + win
      · rw [if_pos (Nat.min_eq_right hreach)]
        refine ⟨1, Reaching.single hi hreach, ?_⟩
        simp
      · obtain ⟨count, hcount, hrest⟩ := ih (i := i + step) (by omega)
        refine ⟨count + 1, Reaching.cons (by omega) hstep hcount, ?_⟩
        have hshift : (fun k => window lines win (i + k * step)) ∘ Nat.succ =
            fun k => window lines win (i + step + k * step) := by
          funext k
          rw [Function.comp_apply, Nat.succ_mul, Nat.add_assoc, Nat.add_comm step]
        rw [if_neg (by omega), hrest, ← List.filter_append, List.range_succ_eq_map, List.map_cons,
          List.map_map, hshift, Nat.zero_mul, Nat.add_zero]
        rfl
    · rw [if_neg hi]
      exact ⟨0, ⟨by omega, by omega, by omega⟩, rfl⟩

/-! ## The order of the windows -/

theorem windowChunk_lineLo {i hi : Nat} : ∀ c ∈ windowChunk lines i hi, c.lineLo = i + 1 := by
  intro c hc
  simp only [windowChunk] at hc
  split at hc
  · simp at hc
  · rw [List.mem_singleton.1 hc]

theorem windowsFrom_lineLo (fuel i : Nat) :
    ∀ c ∈ windowsFrom lines win step fuel i, i + 1 ≤ c.lineLo := by
  induction fuel generalizing i with
  | zero => simp [windowsFrom]
  | succ fuel ih =>
    rw [windowsFrom_succ]
    intro c hc
    split at hc
    · split at hc
      · exact Nat.le_of_eq (windowChunk_lineLo c hc).symm
      · rcases List.mem_append.1 hc with hc | hc
        · exact Nat.le_of_eq (windowChunk_lineLo c hc).symm
        · have hle := ih (i + step) c hc
          omega
    · simp at hc

/-- However long a step is, each window begins after the one before it. -/
theorem windowsFrom_ordered (hpos : 0 < step) (fuel i : Nat) :
    (windowsFrom lines win step fuel i).Pairwise fun c d => c.lineLo < d.lineLo := by
  have hsingle : ∀ i hi, (windowChunk lines i hi).Pairwise fun c d => c.lineLo < d.lineLo := by
    intro i hi
    simp only [windowChunk]
    split <;> simp
  induction fuel generalizing i with
  | zero => exact List.Pairwise.nil
  | succ fuel ih =>
    rw [windowsFrom_succ]
    split
    · split
      · exact hsingle _ _
      · rw [List.pairwise_append]
        refine ⟨hsingle _ _, ih _, fun c hc d hd => ?_⟩
        have hlo := windowChunk_lineLo c hc
        have hle := windowsFrom_lineLo fuel (i + step) d hd
        omega
    · exact List.Pairwise.nil

/-! ## Coverage and overlap -/

variable {count : Nat}

/-- Every line is in one of the windows. -/
theorem Reaching.covers (h : Reaching lines win step 0 count) (hpos : 0 < step)
    (hstep : step ≤ win) {i : Nat} (hi : i < lines.length) :
    ∃ k < count, k * step ≤ i ∧ i < k * step + win := by
  have hcount : count ≠ 0 := fun hzero => by
    have hend := h.none.1 hzero
    omega
  have hdiv : i / step * step ≤ i := Nat.div_mul_le_self i step
  have hmod : i < i / step * step + step := by
    have heq := Nat.div_add_mod' i step
    have hlt := Nat.mod_lt i hpos
    omega
  -- the last window that begins at or before the line
  by_cases hk : i / step < count
  · exact ⟨i / step, hk, hdiv, by omega⟩
  · have hreach := (h.last (count - 1) (by omega)).2 (by omega)
    have hle : (count - 1) * step ≤ i / step * step := Nat.mul_le_mul_right step (by omega)
    exact ⟨count - 1, by omega, by omega, by omega⟩

/-- A window before the last one ends before the last line. -/
theorem Reaching.lt_of_next (h : Reaching lines win step 0 count) {k : Nat} (hk : k + 1 < count) :
    k * step + win < lines.length := by
  by_contra hreach
  have hlast := (h.last k (by omega)).1 (by omega)
  omega

/-- Consecutive windows share `win - step` lines. -/
theorem Reaching.shared (h : Reaching lines win step 0 count) (hstep : step ≤ win) {k : Nat}
    (hk : k + 1 < count) :
    ((window lines win (k * step)).span ∩ (window lines win ((k + 1) * step)).span).card =
      win - step := by
  have hend := h.lt_of_next hk
  have hnext : (k + 1) * step = k * step + step := Nat.succ_mul k step
  have hspan : (window lines win (k * step)).span ∩ (window lines win ((k + 1) * step)).span =
      Finset.Icc ((k + 1) * step + 1) (k * step + win) := by
    ext line
    simp only [Chunk.span, window, Finset.mem_inter, Finset.mem_Icc]
    omega
  rw [hspan, Nat.card_Icc]
  omega

/-- The last line of a window is in no earlier one. -/
theorem Reaching.fresh (h : Reaching lines win step 0 count) {j k : Nat} (hj : j < k)
    (hk : k < count) (hpos : 0 < step) :
    (window lines win (k * step)).lineHi ∉ (window lines win (j * step)).span := by
  have hend := h.lt_of_next (k := j) (by omega)
  have hlt : j * step < k * step := Nat.mul_lt_mul_of_pos_right hj hpos
  simp only [Chunk.span, window, Finset.mem_Icc]
  omega

theorem Reaching.lineLo_le (h : Reaching lines win step 0 count) (hwin : 0 < win) {k : Nat}
    (hk : k < count) :
    (window lines win (k * step)).lineLo ≤ (window lines win (k * step)).lineHi := by
  have hbegin := h.begins k hk
  simp only [window]
  omega

/-- A window that holds a line that is not blank is not blank. -/
theorem nonblank_window {i start : Nat} (hi : i < lines.length) (hline : nonblank lines[i] = true)
    (hstart : start ≤ i) (hend : i < start + win) :
    nonblank (window lines win start).text = true := by
  rw [nonblank_iff] at hline ⊢
  intro hblank
  refine hline (trim_join_eq_nil.1 hblank _ ?_)
  rw [List.mem_iff_getElem]
  refine ⟨i - start, ?_, ?_⟩
  · rw [List.length_drop, List.length_take]
    omega
  · rw [List.getElem_drop, List.getElem_take]
    congr 1
    omega

end Loop

/-- The chunks of a text in windows of `win` lines that advance by `step`: the windows, `count` of
them, as far as the first one that reaches the last line, without the blank ones. -/
structure ExactWindows (text : Text) (win step count : Nat) (chunks : List Chunk) : Prop where
  reaching : Reaching (lines text) win step 0 count
  chunks_eq : chunks = ((List.range count).map fun k => window (lines text) win (k * step)).filter
    fun c => nonblank c.text
  /-- A chunk holds the source lines that it names. -/
  source : ∀ c ∈ chunks, 1 ≤ c.lineLo ∧ c.lineLo ≤ c.lineHi ∧ c.lineHi ≤ (lines text).length ∧
    c.text = join (((lines text).take c.lineHi).drop (c.lineLo - 1))
  covered : ∀ i (hi : i < (lines text).length), nonblank (lines text)[i] = true →
    ∃ c ∈ chunks, i + 1 ∈ c.span
  shared : ∀ k, k + 1 < count →
    ((window (lines text) win (k * step)).span ∩
      (window (lines text) win ((k + 1) * step)).span).card = win - step
  fresh : ∀ k, 0 < k → k < count → ∃ line ∈ (window (lines text) win (k * step)).span,
    ∀ j < k, line ∉ (window (lines text) win (j * step)).span

/-- The line windows of a text, for windows at least as long as a step. -/
theorem chunk_lines_exact (text : Text) (win step : Nat) (h : max step 1 ≤ max win 1) :
    ∃ count, ExactWindows text (max win 1) (max step 1) count (chunk text (.lines win step)) := by
  have hpos : 0 < max step 1 := by omega
  obtain ⟨count, hcount, hloop⟩ := windowsFrom_windows (lines text) (i := 0) hpos h
    (Nat.le_refl _)
  simp only [Nat.zero_add] at hloop
  have hchunks : chunk text (.lines win step) =
      ((List.range count).map fun k => window (lines text) (max win 1) (k * max step 1)).filter
        fun c => nonblank c.text := hloop
  refine ⟨count, hcount, hchunks, ?_, ?_, fun k hk => hcount.shared h hk, ?_⟩
  · intro c hc
    rw [hchunks, List.mem_filter, List.mem_map] at hc
    obtain ⟨⟨k, hk, rfl⟩, -⟩ := hc
    refine ⟨Nat.le_add_left 1 _, hcount.lineLo_le (by omega) (List.mem_range.1 hk), ?_, rfl⟩
    exact Nat.min_le_right _ _
  · intro i hi hline
    obtain ⟨k, hk, hle, hlt⟩ := hcount.covers hpos h hi
    refine ⟨window (lines text) (max win 1) (k * max step 1), ?_, ?_⟩
    · rw [hchunks, List.mem_filter]
      exact ⟨List.mem_map_of_mem (List.mem_range.2 hk), nonblank_window hi hline hle hlt⟩
    · simp only [Chunk.span, window, Finset.mem_Icc]
      omega
  · intro k hk hlt
    have hlo := hcount.lineLo_le (by omega : 0 < max win 1) hlt
    refine ⟨_, ?_, fun j hj => hcount.fresh hj hlt hpos⟩
    exact Finset.mem_Icc.2 ⟨hlo, Nat.le_refl _⟩

/-- The modes of `ChunkMode::for_ext` advance by no more than a window. -/
theorem forExt_step_le {ext : String} {win step : Nat}
    (h : ChunkMode.forExt ext = .lines win step) : max step 1 ≤ max win 1 := by
  unfold ChunkMode.forExt at h
  split at h
  · simp at h
  · simp at h
  · simp at h
  · simp at h
  · simp only [ChunkMode.lines.injEq] at h
    omega

theorem chunk_lines_exact_ten :
    ∃ count, ExactWindows "1\n2\n3\n4\n5\n6\n7\n8\n9\n10".toList 4 3 count
      (chunk "1\n2\n3\n4\n5\n6\n7\n8\n9\n10".toList (.lines 4 3)) :=
  chunk_lines_exact _ 4 3 (by decide)

/-! ## Machine integers -/

namespace Checked

/-- A panic, or an iteration beyond the given number. -/
inductive Fault
  | overflow
  | outOfRange
  | running
  deriving DecidableEq, Repr

/-- `a + b` of type `usize`. -/
def add (a b : UInt64) : Except Fault UInt64 :=
  if a.toNat + b.toNat < UInt64.size then .ok (a + b) else .error .overflow

/-- `&lines[lo..hi]`. -/
def slice (lines : List Text) (lo hi : UInt64) : Except Fault (List Text) :=
  if lo ≤ hi ∧ hi.toNat ≤ lines.length then .ok ((lines.take hi.toNat).drop lo.toNat)
  else .error .outOfRange

/-- The chunk of the lines from `i` up to `hi`, unless it is blank. -/
def windowChunk (lines : List Text) (i hi : UInt64) : Except Fault (List Chunk) := do
  let part ← slice lines i hi
  let body := join part
  if (trim body).isEmpty then pure []
  else do
    let lo ← add i 1
    pure [⟨body, lo.toNat, hi.toNat⟩]

/-- The loop of `line_windows` from the cursor `i`, for at most `fuel` iterations. -/
def windowsFrom (lines : List Text) (win step : UInt64) :
    Nat → UInt64 → Except Fault (List Chunk)
  | 0, i => if i.toNat < lines.length then .error .running else .ok []
  | fuel + 1, i =>
    if i.toNat < lines.length then do
      let reach ← add i win
      let hi := min reach (UInt64.ofNat lines.length)
      let here ← windowChunk lines i hi
      -- `break`
      if hi.toNat = lines.length then pure here
      else do
        let next ← add i step
        let rest ← windowsFrom lines win step fuel next
        pure (here ++ rest)
    else .ok []

/-- `line_windows`, in no more iterations than there are lines. -/
def lineWindows (text : Text) (win step : UInt64) : Except Fault (List Chunk) :=
  windowsFrom (lines text) win step (lines text).length 0

/-- `chunk` in the mode `Lines`. -/
def chunk (text : Text) (win step : UInt64) : Except Fault (List Chunk) :=
  lineWindows text (max win 1) (max step 1)

theorem toNat_add {a b : UInt64} (h : a.toNat + b.toNat < UInt64.size) :
    (a + b).toNat = a.toNat + b.toNat := by
  rw [UInt64.toNat_add]
  exact Nat.mod_eq_of_lt h

theorem toNat_min (a b : UInt64) : (min a b).toNat = min a.toNat b.toNat := by
  have hmin : min a b = if a ≤ b then a else b := rfl
  rw [hmin]
  split
  · rename_i hle
    exact (Nat.min_eq_left (UInt64.le_iff_toNat_le.1 hle)).symm
  · rename_i hle
    rw [UInt64.le_iff_toNat_le] at hle
    omega

theorem toNat_max (a b : UInt64) : (max a b).toNat = max a.toNat b.toNat := by
  have hmax : max a b = if a ≤ b then b else a := rfl
  rw [hmax]
  split
  · rename_i hle
    exact (Nat.max_eq_right (UInt64.le_iff_toNat_le.1 hle)).symm
  · rename_i hle
    rw [UInt64.le_iff_toNat_le] at hle
    omega

theorem ok_bind {α β : Type} (a : α) (f : α → Except Fault β) :
    ((Except.ok a : Except Fault α) >>= f) = f a := rfl

/-- A sum below `2 ^ 64` is no fault. -/
theorem add_bind {α : Type} {a b : UInt64} (h : a.toNat + b.toNat < UInt64.size)
    (f : UInt64 → Except Fault α) : (add a b >>= f) = f (a + b) := by
  rw [add, if_pos h]
  rfl

/-- Nor is a slice of lines that exist. -/
theorem slice_bind {α : Type} {lines : List Text} {lo hi : UInt64} (hlo : lo.toNat ≤ hi.toNat)
    (hhi : hi.toNat ≤ lines.length) (f : List Text → Except Fault α) :
    (slice lines lo hi >>= f) = f ((lines.take hi.toNat).drop lo.toNat) := by
  rw [slice, if_pos ⟨UInt64.le_iff_toNat_le.2 hlo, hhi⟩]
  rfl

theorem windowChunk_ok (lines : List Text) {i hi : UInt64} (hlo : i.toNat < hi.toNat)
    (hhi : hi.toNat ≤ lines.length) :
    windowChunk lines i hi = .ok (Ingest.windowChunk lines i.toNat hi.toNat) := by
  have hone : i.toNat + (1 : UInt64).toNat < UInt64.size := by
    have hbound := hi.toNat_lt
    have hsize : UInt64.size = 2 ^ 64 := rfl
    rw [UInt64.toNat_one]
    omega
  rw [windowChunk, slice_bind (Nat.le_of_lt hlo) hhi, Ingest.windowChunk]
  dsimp only
  split
  · rfl
  · rw [add_bind hone, toNat_add hone]
    rfl

/-- The cursor is at the first line, or a window and a step before it fitted into the text. -/
def Cursor (lines : List Text) (win step i : UInt64) : Prop :=
  i = 0 ∨ (win.toNat < lines.length ∧ step.toNat ≤ i.toNat)

section Loop

variable {lines : List Text} {win step i : UInt64}

/-- The window of an iteration does not overflow. -/
theorem Cursor.window_lt (h : Cursor lines win step i) (hlen : lines.length < 2 ^ 63)
    (hi : i.toNat < lines.length) : i.toNat + win.toNat < UInt64.size := by
  have hwin := win.toNat_lt
  have hsize : UInt64.size = 2 ^ 64 := rfl
  rcases h with rfl | ⟨hw, -⟩
  · rw [hsize, UInt64.toNat_zero, Nat.zero_add]
    exact hwin
  · omega

/-- Nor does the step after a window that does not reach the last line, and the next iteration is
as safe. -/
theorem Cursor.step_lt (h : Cursor lines win step i) (hlen : lines.length < 2 ^ 63)
    (hi : i.toNat < lines.length) (hreach : i.toNat + win.toNat < lines.length) :
    i.toNat + step.toNat < UInt64.size ∧ Cursor lines win step (i + step) := by
  have hstep := step.toNat_lt
  have hsize : UInt64.size = 2 ^ 64 := rfl
  have hsum : i.toNat + step.toNat < UInt64.size := by
    rcases h with rfl | ⟨-, hs⟩
    · rw [hsize, UInt64.toNat_zero, Nat.zero_add]
      exact hstep
    · omega
  refine ⟨hsum, Or.inr ⟨by omega, ?_⟩⟩
  rw [toNat_add hsum]
  omega

/-- The checked loop has no fault and gives the windows of the unbounded one. -/
theorem windowsFrom_ok (hlen : lines.length < 2 ^ 63) (hpos : 0 < win.toNat)
    (hstep : 0 < step.toNat) {fuel : Nat} (hcursor : Cursor lines win step i)
    (hfuel : lines.length - i.toNat ≤ fuel) :
    windowsFrom lines win step fuel i =
      .ok (Ingest.windowsFrom lines win.toNat step.toNat fuel i.toNat) := by
  induction fuel generalizing i with
  | zero =>
    apply if_neg
    omega
  | succ fuel ih =>
    rw [windowsFrom, Ingest.windowsFrom_succ]
    by_cases hi : i.toNat < lines.length
    · have hwin := hcursor.window_lt hlen hi
      have hlenNat : (UInt64.ofNat lines.length).toNat = lines.length :=
        UInt64.toNat_ofNat_of_lt (Nat.lt_trans hlen (by decide))
      have hmin : (min (i + win) (UInt64.ofNat lines.length)).toNat =
          min (i.toNat + win.toNat) lines.length := by
        rw [toNat_min, toNat_add hwin, hlenNat]
      have hchunk : windowChunk lines i (min (i + win) (UInt64.ofNat lines.length)) = .ok _ :=
        windowChunk_ok lines (by omega) (by omega)
      rw [if_pos hi, if_pos hi, add_bind hwin]
      dsimp only
      rw [hchunk, hmin, ok_bind]
      by_cases hreach : min (i.toNat + win.toNat) lines.length = lines.length
      · rw [if_pos hreach, if_pos hreach]
        rfl
      · -- the next cursor is as safe as this one
        obtain ⟨hsum, hnext⟩ := hcursor.step_lt hlen hi (by omega)
        have hadd := toNat_add hsum
        rw [if_neg hreach, if_neg hreach, add_bind hsum, ih hnext (by omega), ok_bind, hadd]
        rfl
    · rw [if_neg hi, if_neg hi]

end Loop

/-- A text has no more lines than bytes. -/
theorem length_lines_le_utf8 (text : Text) : (lines text).length ≤ (utf8 text).length := by
  apply Nat.le_trans (length_lines_le text)
  induction text with
  | nil => exact Nat.le_refl 0
  | cons c text ih =>
    have hsize := c.utf8Size_pos
    rw [utf8, List.flatMap_cons, List.length_append, String.length_utf8EncodeChar,
      List.length_cons]
    rw [utf8] at ih
    omega

/-- For every text shorter than `2 ^ 63` bytes and every `win` and `step`, the loop over machine
integers overflows nowhere, takes no slice out of range and ends within one iteration for each line,
with the chunks of `chunk`. -/
theorem chunk_lines_checked (text : Text) (win step : UInt64)
    (h : (utf8 text).length ≤ 2 ^ 63 - 1) :
    chunk text win step = .ok (Ingest.chunk text (.lines win.toNat step.toNat)) := by
  have hlen : (lines text).length < 2 ^ 63 := by
    have hle := length_lines_le_utf8 text
    omega
  have hwin : (max win 1).toNat = max win.toNat 1 := toNat_max win 1
  have hstep : (max step 1).toNat = max step.toNat 1 := toNat_max step 1
  rw [chunk, lineWindows, windowsFrom_ok hlen (by omega) (by omega) (Or.inl rfl) (Nat.sub_le _ _),
    hwin, hstep]
  rfl

theorem chunk_lines_checked_extreme :
    chunk "a\nb\nc".toList 0 18446744073709551615 =
      .ok (Ingest.chunk "a\nb\nc".toList
        (.lines (0 : UInt64).toNat (18446744073709551615 : UInt64).toNat)) :=
  chunk_lines_checked _ 0 18446744073709551615 (by decide)

end Checked

end SkegRigging.Ingest
