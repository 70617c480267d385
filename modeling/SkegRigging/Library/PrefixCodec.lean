import Mathlib.Data.List.Basic

/-!
# Prefix codecs for JSON-like texts

A codec writes a value as bytes and reads a value off the front of its input. It is `Closed` when it
reads back what it wrote whatever follows, and `Open` when what follows must start with a byte that
is no digit: a number does not say where it ends.

From digits, literals, strings and booleans, `pair`, `thenLit`, `list` and `convert` build codecs of
records; each keeps the laws. The text of a closed codec is never a proper prefix of another one
(`Closed.eq_of_append`).
-/

set_option autoImplicit false

namespace SkegRigging.PrefixCodec

universe u v

/-- A value written as bytes, and read off the front of the input with the rest. -/
structure Codec (α : Type u) where
  write : α → List UInt8
  read : List UInt8 → Option (α × List UInt8)

/-- An ASCII digit. -/
def isDigit (b : UInt8) : Bool := 48 ≤ b && b ≤ 57

variable {α : Type u} {β : Type v}

/-- What is written is read back, whatever follows. -/
def Closed (c : Codec α) : Prop := ∀ a rest, c.read (c.write a ++ rest) = some (a, rest)

/-- What is written is read back when no digit follows. -/
def Open (c : Codec α) : Prop :=
  ∀ a b rest, isDigit b = false → c.read (c.write a ++ b :: rest) = some (a, b :: rest)

theorem Closed.open {c : Codec α} (hc : Closed c) : Open c := fun a b rest _ => hc a (b :: rest)

/-- A text of a closed codec that starts with another one is that one. -/
theorem Closed.eq_of_append {c : Codec α} (hc : Closed c) {a a' : α} {rest : List UInt8}
    (h : c.write a = c.write a' ++ rest) : a = a' ∧ rest = [] := by
  -- the reader cannot tell the two texts apart: it returns the first value and leaves the rest
  have hread := hc a []
  rw [List.append_nil, h, hc a' rest] at hread
  simp only [Option.some.injEq, Prod.mk.injEq] at hread
  exact ⟨hread.1.symm, hread.2⟩

/-! ## Combinators -/

/-- Read `lit` off the front of the input. -/
def dropLit (lit p : List UInt8) : Option (List UInt8) :=
  if p.take lit.length = lit then some (p.drop lit.length) else none

@[simp] theorem dropLit_append (lit rest : List UInt8) : dropLit lit (lit ++ rest) = some rest := by
  simp [dropLit]

/-- The codec `c` between two literals. -/
def enclose (before : List UInt8) (c : Codec α) (after : List UInt8) : Codec α where
  write a := before ++ c.write a ++ after
  read p := (dropLit before p).bind fun p => (c.read p).bind fun (a, p) =>
    (dropLit after p).map fun p => (a, p)

theorem enclose_closed (before : List UInt8) {c : Codec α} (hc : Open c) {b : UInt8}
    (hb : isDigit b = false) (after : List UInt8) : Closed (enclose before c (b :: after)) := by
  intro a rest
  have hassoc : before ++ c.write a ++ b :: after ++ rest =
      before ++ (c.write a ++ b :: (after ++ rest)) := by simp
  have hafter : dropLit (b :: after) (b :: (after ++ rest)) = some rest :=
    dropLit_append (b :: after) rest
  simp only [enclose, hassoc, dropLit_append, Option.bind_some, hc a b (after ++ rest) hb, hafter,
    Option.map_some]

/-- One value after another. -/
def pair (c : Codec α) (d : Codec β) : Codec (α × β) where
  write p := c.write p.1 ++ d.write p.2
  read p := (c.read p).bind fun (a, p) => (d.read p).map fun (b, p) => ((a, b), p)

theorem pair_closed {c : Codec α} {d : Codec β} (hc : Closed c) (hd : Closed d) :
    Closed (pair c d) := by
  rintro ⟨a, b⟩ rest
  simp only [pair, List.append_assoc, hc a, Option.bind_some, hd b, Option.map_some]

/-- A codec of `β` through `α`: `parse` may reject. -/
def convert (c : Codec α) (print : β → α) (parse : α → Option β) : Codec β where
  write b := c.write (print b)
  read p := (c.read p).bind fun (a, p) => (parse a).map fun b => (b, p)

theorem convert_closed {c : Codec α} (hc : Closed c) {print : β → α} {parse : α → Option β}
    (h : ∀ b, parse (print b) = some b) : Closed (convert c print parse) := by
  intro b rest
  simp only [convert, hc (print b), Option.bind_some, h b, Option.map_some]

theorem convert_open {c : Codec α} (hc : Open c) {print : β → α} {parse : α → Option β}
    (h : ∀ b, parse (print b) = some b) : Open (convert c print parse) := by
  intro b d rest hd
  simp only [convert, hc (print b) d rest hd, Option.bind_some, h b, Option.map_some]

/-! ## Numbers, booleans and strings -/

/-- Decimal digits. -/
def digits : Codec Nat where
  write n := (Nat.toDigits 10 n).map fun c => UInt8.ofNat c.toNat
  read p :=
    match p.takeWhile isDigit with
    | [] => none
    | ds => some (Nat.ofDigitChars 10 (ds.map fun b => Char.ofNat b.toNat) 0, p.dropWhile isDigit)

theorem isDigit_of_char {c : Char} (h : c.isDigit = true) :
    isDigit (UInt8.ofNat c.toNat) = true ∧ Char.ofNat (UInt8.ofNat c.toNat).toNat = c := by
  obtain ⟨hlo, hhi⟩ : 48 ≤ c.toNat ∧ c.toNat ≤ 57 := by
    simpa [Char.isDigit, Char.le_def, UInt32.le_iff_toNat_le] using h
  have hmod : (UInt8.ofNat c.toNat).toNat = c.toNat := by
    rw [UInt8.toNat_ofNat']
    omega
  refine ⟨?_, by rw [hmod, Char.ofNat_toNat]⟩
  simp only [isDigit, UInt8.le_iff_toNat_le, hmod, Bool.and_eq_true, decide_eq_true_eq]
  exact ⟨hlo, hhi⟩

theorem digits_open : Open digits := by
  intro n b rest hb
  have hall : ∀ d ∈ digits.write n, isDigit d = true := by
    intro d hd
    obtain ⟨c, hc, rfl⟩ := List.mem_map.1 hd
    exact (isDigit_of_char (Nat.isDigit_of_mem_toDigits (by decide) (by decide) hc)).1
  -- the digits end exactly where the next byte is no digit
  have htake : (digits.write n ++ b :: rest).takeWhile isDigit = digits.write n := by
    rw [List.takeWhile_append_of_pos hall, List.takeWhile_cons_of_neg (by simp [hb]),
      List.append_nil]
  have hdrop : (digits.write n ++ b :: rest).dropWhile isDigit = b :: rest := by
    rw [List.dropWhile_append_of_pos hall, List.dropWhile_cons_of_neg (by simp [hb])]
  have hback : (digits.write n).map (fun b => Char.ofNat b.toNat) = Nat.toDigits 10 n := by
    have hid : ∀ c ∈ Nat.toDigits 10 n, Char.ofNat (UInt8.ofNat c.toNat).toNat = c := fun c hc =>
      (isDigit_of_char (Nat.isDigit_of_mem_toDigits (by decide) (by decide) hc)).2
    rw [digits, List.map_map]
    exact (List.map_congr_left hid).trans (List.map_id' _)
  have hne : digits.write n ≠ [] := by simp [digits, Nat.toDigits_ne_nil]
  obtain ⟨d, ds, hds⟩ := List.exists_cons_of_ne_nil hne
  have hread : digits.read (digits.write n ++ b :: rest) =
      some (Nat.ofDigitChars 10 ((digits.write n).map fun b => Char.ofNat b.toNat) 0,
        b :: rest) := by
    simp only [digits] at htake hdrop hds ⊢
    rw [htake, hdrop, hds]
  rw [hread, hback, Nat.ofDigitChars_ten_toDigits]

/-- `true` and `false`. -/
def bool : Codec Bool where
  write b := if b then [116, 114, 117, 101] else [102, 97, 108, 115, 101]
  read p :=
    match dropLit [116, 114, 117, 101] p with
    | some p => some (true, p)
    | none => (dropLit [102, 97, 108, 115, 101] p).map fun p => (false, p)

theorem bool_closed : Closed bool := by
  intro b rest
  cases b with
  | true =>
    have h := dropLit_append [116, 114, 117, 101] rest
    simp only [bool, if_true, h]
  | false =>
    have hnot : dropLit [116, 114, 117, 101] ([102, 97, 108, 115, 101] ++ rest) = none := by
      simp [dropLit]
    have h := dropLit_append [102, 97, 108, 115, 101] rest
    simp only [bool, Bool.false_eq_true, if_false, hnot, h, Option.map_some]

/-- The body of a string up to its closing quote; a backslash escapes the byte after it. -/
def readQuoted : List UInt8 → Option (List UInt8 × List UInt8)
  | [] => none
  | [92] => none
  | 92 :: b :: p => (readQuoted p).map fun (bs, p) => (b :: bs, p)
  | b :: p => if b = 34 then some ([], p) else (readQuoted p).map fun (bs, p) => (b :: bs, p)

/-- Quotes and backslashes are escaped, every other byte stands for itself. -/
def escape (b : UInt8) : List UInt8 := if b = 34 ∨ b = 92 then [92, b] else [b]

/-- Bytes in quotes. -/
def quoted : Codec (List UInt8) where
  write bs := 34 :: bs.flatMap escape ++ [34]
  read p := (dropLit [34] p).bind readQuoted

theorem readQuoted_escape (b : UInt8) (p : List UInt8) :
    readQuoted (escape b ++ p) = (readQuoted p).map fun (bs, p) => (b :: bs, p) := by
  -- an escaped byte comes back through the backslash, any other as itself
  by_cases hb : b = 34 ∨ b = 92
  · rw [escape, if_pos hb]
    rfl
  · rw [escape, if_neg hb, List.singleton_append, readQuoted.eq_4]
    · rw [if_neg fun h => hb (Or.inl h)]
    · intro h _
      exact hb (Or.inr h)
    · intro _ _ h _
      exact hb (Or.inr h)

theorem quoted_closed : Closed quoted := by
  intro bs rest
  have hbody : ∀ bs : List UInt8,
      readQuoted (bs.flatMap escape ++ 34 :: rest) = some (bs, rest) := by
    intro bs
    induction bs with
    | nil => rfl
    | cons b bs ih =>
      rw [List.flatMap_cons, List.append_assoc, readQuoted_escape, ih, Option.map_some]
  have hopen : dropLit [34] (34 :: (bs.flatMap escape ++ 34 :: rest)) =
      some (bs.flatMap escape ++ 34 :: rest) := dropLit_append [34] _
  have hassoc : 34 :: bs.flatMap escape ++ [34] ++ rest =
      34 :: (bs.flatMap escape ++ 34 :: rest) := by simp
  simp only [quoted, hassoc, hopen, Option.bind_some, hbody]

/-! ## Lists -/

/-- The elements up to the closing bracket, each followed by a comma or the bracket. -/
def writeElems (c : Codec α) : List α → List UInt8
  | [] => [93]
  | [a] => c.write a ++ [93]
  | a :: b :: l => c.write a ++ 44 :: writeElems c (b :: l)

/-- Read at least one element, at most `fuel`. -/
def readElems (c : Codec α) : Nat → List UInt8 → Option (List α × List UInt8)
  | 0, _ => none
  | fuel + 1, p =>
    match c.read p with
    -- a comma: another element follows
    | some (a, 44 :: p) => (readElems c fuel p).map fun (l, p) => (a :: l, p)
    | some (a, 93 :: p) => some ([a], p)
    | _ => none

/-- A list in brackets. -/
def list (c : Codec α) : Codec (List α) where
  write l := 91 :: writeElems c l
  read p := (dropLit [91] p).bind fun p =>
    match dropLit [93] p with
    | some p => some ([], p)
    | none => readElems c p.length p

theorem length_le_writeElems (c : Codec α) (l : List α) : l.length ≤ (writeElems c l).length := by
  induction l with
  | nil => simp
  | cons a l ih =>
    cases l with
    | nil => simp [writeElems]
    | cons b l =>
      simp only [writeElems, List.length_append, List.length_cons] at ih ⊢
      omega

theorem readElems_writeElems {c : Codec α} (hc : Open c) {l : List α} (hl : l ≠ []) {fuel : Nat}
    (hfuel : l.length ≤ fuel) (rest : List UInt8) :
    readElems c fuel (writeElems c l ++ rest) = some (l, rest) := by
  induction l generalizing fuel with
  | nil => simp at hl
  | cons a l ih =>
    obtain ⟨fuel, rfl⟩ : ∃ f, fuel = f + 1 := Nat.exists_eq_add_one.2 (by simp at hfuel; omega)
    cases l with
    | nil =>
      have hread := hc a 93 rest (by decide)
      simp only [readElems, writeElems, List.append_assoc, List.singleton_append, hread]
    | cons b l =>
      have hread := hc a 44 (writeElems c (b :: l) ++ rest) (by decide)
      have hrest := ih (by simp) (by simpa using hfuel)
      simp only [readElems, writeElems, List.append_assoc, List.cons_append, hread, hrest,
        Option.map_some]

/-- Lists of values whose texts do not start with a closing bracket. -/
theorem list_closed {c : Codec α} (hc : Open c)
    (hne : ∀ a rest, dropLit [93] (c.write a ++ rest) = none) : Closed (list c) := by
  intro l rest
  have hopen : dropLit [91] (91 :: (writeElems c l ++ rest)) = some (writeElems c l ++ rest) :=
    dropLit_append [91] _
  have hwrite : (list c).write l ++ rest = 91 :: (writeElems c l ++ rest) := rfl
  rw [hwrite]
  simp only [list, hopen, Option.bind_some]
  cases l with
  | nil =>
    have hclose : dropLit [93] (writeElems c [] ++ rest) = some rest := dropLit_append [93] rest
    rw [hclose]
  | cons a l =>
    -- the reader takes the empty list only where the closing bracket is next
    have hnot : dropLit [93] (writeElems c (a :: l) ++ rest) = none := by
      cases l with
      | nil => simpa only [writeElems, List.append_assoc] using hne a _
      | cons b l => simpa only [writeElems, List.append_assoc] using hne a _
    rw [hnot]
    refine readElems_writeElems hc (by simp) ?_ rest
    rw [List.length_append]
    exact Nat.le_trans (length_le_writeElems c _) (Nat.le_add_right _ _)

end SkegRigging.PrefixCodec
