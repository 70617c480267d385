import Mathlib.Data.List.Basic

/-!
# Chunks of a text

`chunk.rs`: a text is split into paragraphs or into sliding windows of lines. A text is its list of
characters; `lines`, `trim` and `splitWhitespace` follow the `str` methods of those names, with
Unicode's `White_Space` property. Line numbers and cursors are naturals: the windows of a text that
fits in memory stay far below `2 ^ 64`.
-/

set_option autoImplicit false

namespace SkegRigging.Ingest

/-- A `str`, as its characters. -/
abbrev Text := List Char

/-! ## The `str` methods -/

/-- `char::is_whitespace`. -/
def isWhitespace (c : Char) : Bool :=
  let n := c.toNat
  (9 ≤ n && n ≤ 13) || n == 0x20 || n == 0x85 || n == 0xA0 || n == 0x1680 ||
    (0x2000 ≤ n && n ≤ 0x200A) || n == 0x2028 || n == 0x2029 || n == 0x202F || n == 0x205F ||
    n == 0x3000

/-- `str::trim`. -/
def trim (text : Text) : Text :=
  ((text.dropWhile isWhitespace).reverse.dropWhile isWhitespace).reverse

/-- `str::split_whitespace`. -/
def splitWhitespace (text : Text) : List Text :=
  (text.splitOnP isWhitespace).filter fun word => !word.isEmpty

/-- `str::split_inclusive('\n')`: the pieces keep their newline, and there is no empty last one. -/
def splitInclusive : Text → List Text
  | [] => []
  | c :: cs =>
    if c = '\n' then [c] :: splitInclusive cs
    else
      match splitInclusive cs with
      | [] => [[c]]
      | piece :: pieces => (c :: piece) :: pieces

/-- `str::strip_suffix` for one character. -/
def stripSuffix (c : Char) (text : Text) : Option Text :=
  if text.getLast? = some c then some text.dropLast else none

/-- A piece without its line ending: `\n`, with the `\r` before it. A `\r` alone stays. -/
def stripLineEnding (piece : Text) : Text :=
  match stripSuffix '\n' piece with
  | none => piece
  | some line => (stripSuffix '\r' line).getD line

/-- `str::lines`. -/
def lines (text : Text) : List Text := (splitInclusive text).map stripLineEnding

/-- `[&str]::join("\n")`. -/
def join (parts : List Text) : Text := ['\n'].intercalate parts

/-! ## Chunking -/

/-- One chunk of a file with its source lines, 1-based and inclusive. -/
structure Chunk where
  text : Text
  lineLo : Nat
  lineHi : Nat
  deriving DecidableEq, Repr

/-- How to split a file. -/
inductive ChunkMode
  | paragraph
  | lines (win step : Nat)
  deriving DecidableEq, Repr

/-- The default mode for a file extension. -/
def ChunkMode.forExt (ext : String) : ChunkMode :=
  match ext with
  | "md" | "mdx" | "txt" | "rst" => .paragraph
  | _ => .lines 40 30

def wordCount (s : Text) : Nat := (splitWhitespace s).length

/-- Append the paragraph of the buffered lines, unless it is blank. -/
def pushPara (out : List Chunk) (buf : List Text) (lo hi : Nat) : List Chunk :=
  let text := join buf
  if (trim text).isEmpty then out else out ++ [⟨text, lo, hi⟩]

/-- The variables of the loop in `paragraphs`: the chunks so far, the lines of the current paragraph
and the line where it began. -/
structure Paragraphs where
  out : List Chunk
  buf : List Text
  start : Nat
  deriving DecidableEq, Repr

/-- One iteration, on the line with 0-based number `i`. -/
def Paragraphs.next (s : Paragraphs) (line : Text) (i : Nat) : Paragraphs :=
  let lineno := i + 1
  if (trim line).isEmpty then
    -- a blank line ends the paragraph, whose last line is the one before
    ⟨if s.buf.isEmpty then s.out else pushPara s.out s.buf s.start (lineno - 1), [], lineno + 1⟩
  else
    -- the first line of a paragraph fixes where it starts
    ⟨s.out, s.buf ++ [line], if s.buf.isEmpty then lineno else s.start⟩

/-- The loop of `paragraphs` over numbered lines. -/
def Paragraphs.loop (s : Paragraphs) (numbered : List (Text × Nat)) : Paragraphs :=
  numbered.foldl (fun s l => s.next l.1 l.2) s

def paragraphs (text : Text) : List Chunk :=
  let s := Paragraphs.loop ⟨[], [], 1⟩ (lines text).zipIdx
  if s.buf.isEmpty then s.out else pushPara s.out s.buf s.start (lines text).length

/-- The chunk of the lines from `i` up to `hi`, unless it is blank. -/
def windowChunk (lines : List Text) (i hi : Nat) : List Chunk :=
  let body := join ((lines.take hi).drop i)
  if (trim body).isEmpty then [] else [⟨body, i + 1, hi⟩]

/-- The loop of `line_windows` from the cursor `i`, for at most `fuel` iterations. -/
def windowsFrom (lines : List Text) (win step : Nat) : Nat → Nat → List Chunk
  | 0, _ => []
  | fuel + 1, i =>
    if i < lines.length then
      let hi := min (i + win) lines.length
      -- the window reached the last line: `break`
      if hi = lines.length then windowChunk lines i hi
      else windowChunk lines i hi ++ windowsFrom lines win step fuel (i + step)
    else []

def lineWindows (text : Text) (win step : Nat) : List Chunk :=
  windowsFrom (lines text) win step (lines text).length 0

/-- Split a text into chunks. -/
def chunk (text : Text) : ChunkMode → List Chunk
  | .paragraph => paragraphs text
  -- `win.max(1)` and `step.max(1)`: the cursor always moves
  | .lines win step => lineWindows text (max win 1) (max step 1)

/-! ## The loop of `lineWindows` ends by itself -/

/-- One iteration of the loop. -/
theorem windowsFrom_succ (lines : List Text) (win step fuel i : Nat) :
    windowsFrom lines win step (fuel + 1) i =
      if i < lines.length then
        if min (i + win) lines.length = lines.length then
          windowChunk lines i (min (i + win) lines.length)
        else
          windowChunk lines i (min (i + win) lines.length) ++
            windowsFrom lines win step fuel (i + step)
      else [] := rfl

/-- An iteration moves the cursor, so one iteration for each line still ahead is enough. -/
theorem windowsFrom_fuel {lines : List Text} {win step : Nat} (hstep : 0 < step) {fuel i : Nat}
    (hfuel : lines.length - i ≤ fuel) :
    windowsFrom lines win step (fuel + 1) i = windowsFrom lines win step fuel i := by
  induction fuel generalizing i with
  | zero =>
    -- no line is ahead: the loop condition fails
    have hend : ¬ i < lines.length := by omega
    simp [windowsFrom, hend]
  | succ fuel ih =>
    rw [windowsFrom_succ lines win step (fuel + 1) i, windowsFrom_succ lines win step fuel i]
    split
    · rw [ih (by omega)]
    · rfl

/-- `lineWindows` satisfies the equation of the source's loop, whatever the fuel beyond one
iteration for each line. -/
theorem lineWindows_eq {text : Text} {win step : Nat} (hstep : 0 < step) {fuel : Nat}
    (hfuel : (lines text).length ≤ fuel) :
    windowsFrom (lines text) win step fuel 0 = lineWindows text win step := by
  induction hfuel with
  | refl => rfl
  | step hle ih => rw [windowsFrom_fuel hstep (Nat.le_trans (Nat.sub_le _ _) hle), ih]

/-! ## No chunk is blank -/

theorem pushPara_nonblank {out : List Chunk} {buf : List Text} {lo hi : Nat}
    (h : ∀ c ∈ out, trim c.text ≠ []) : ∀ c ∈ pushPara out buf lo hi, trim c.text ≠ [] := by
  intro c hc
  simp only [pushPara] at hc
  split at hc
  · exact h c hc
  · rename_i hbuf
    rcases List.mem_append.1 hc with hc | hc
    · exact h c hc
    · rw [List.mem_singleton.1 hc]
      simpa using hbuf

theorem windowChunk_nonblank {lines : List Text} {i hi : Nat} :
    ∀ c ∈ windowChunk lines i hi, trim c.text ≠ [] := by
  intro c hc
  simp only [windowChunk] at hc
  split at hc
  · simp at hc
  · rename_i hbody
    rw [List.mem_singleton.1 hc]
    simpa using hbody

theorem Paragraphs.next_nonblank {s : Paragraphs} (line : Text) (i : Nat)
    (h : ∀ c ∈ s.out, trim c.text ≠ []) : ∀ c ∈ (s.next line i).out, trim c.text ≠ [] := by
  simp only [Paragraphs.next]
  split
  · split
    · exact h
    · exact pushPara_nonblank h
  · exact h

theorem Paragraphs.loop_nonblank {s : Paragraphs} (numbered : List (Text × Nat))
    (h : ∀ c ∈ s.out, trim c.text ≠ []) : ∀ c ∈ (s.loop numbered).out, trim c.text ≠ [] := by
  induction numbered generalizing s with
  | nil => exact h
  | cons l rest ih => exact ih (s.next_nonblank l.1 l.2 h)

theorem paragraphs_nonblank (text : Text) : ∀ c ∈ paragraphs text, trim c.text ≠ [] := by
  have hout := Paragraphs.loop_nonblank (s := ⟨[], [], 1⟩) (lines text).zipIdx (by simp)
  simp only [paragraphs]
  split
  · exact hout
  · exact pushPara_nonblank hout

theorem windowsFrom_nonblank {lines : List Text} {win step : Nat} (fuel i : Nat) :
    ∀ c ∈ windowsFrom lines win step fuel i, trim c.text ≠ [] := by
  induction fuel generalizing i with
  | zero => simp [windowsFrom]
  | succ fuel ih =>
    simp only [windowsFrom]
    split
    · split
      · exact windowChunk_nonblank
      · intro c hc
        rcases List.mem_append.1 hc with hc | hc
        · exact windowChunk_nonblank c hc
        · exact ih _ c hc
    · simp

/-- Empty and whitespace-only chunks are dropped, in both modes. -/
theorem chunk_nonblank (text : Text) (mode : ChunkMode) :
    ∀ c ∈ chunk text mode, trim c.text ≠ [] := by
  cases mode with
  | paragraph => exact paragraphs_nonblank text
  | lines win step => exact windowsFrom_nonblank _ _

example : chunk "a b\r\nc\n\n \nd".toList .paragraph =
    [⟨"a b\nc".toList, 1, 2⟩, ⟨"d".toList, 5, 5⟩] := by decide +kernel

end SkegRigging.Ingest
