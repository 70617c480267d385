import SkegRigging.Ingest.Embedder
import SkegRigging.Ingest.Lines
import SkegRigging.Library.Histogram
import SkegRigging.Rigging.MockSearch

/-!
# The bag-of-words backend

`StubEmbed` of `embed.rs`: each word raises the bucket that its FNV-1a hash falls into, and the
vector of the buckets is scaled to length one. `str::to_lowercase` is a parameter.

The loop is written for cells of any type. With naturals it counts the words of each bucket
(`StubEmbed.bagOfWords`); the floats are those counts, in ones (`StubEmbed.passage_eq`).
-/

set_option autoImplicit false

namespace SkegRigging.Ingest

/-- FNV-1a. -/
def fnv (bytes : Bytes) : UInt64 :=
  bytes.foldl (fun h b => (h ^^^ b.toUInt64) * 0x100000001b3) 0xcbf29ce484222325

/-- A deterministic `Embed` for tests and offline use. No dimension is zero. -/
structure StubEmbed where
  dim : UInt32
  positive : 0 < dim.toNat
  deriving DecidableEq

namespace StubEmbed

theorem toNat_max_one (dim : UInt32) : (max dim 1).toNat = max dim.toNat 1 := by
  have hmax : max dim 1 = if dim ≤ 1 then 1 else dim := rfl
  rw [hmax]
  split
  · rename_i hle
    exact (Nat.max_eq_right (UInt32.le_iff_toNat_le.1 hle)).symm
  · rename_i hlt
    rw [UInt32.not_le] at hlt
    exact (Nat.max_eq_left (Nat.le_of_lt (UInt32.lt_iff_toNat_lt.1 hlt))).symm

/-- A stub producing `dim`-dimensional vectors, at least one-dimensional. -/
def new (dim : UInt32) : StubEmbed where
  dim := max dim 1
  positive := by
    rw [toNat_max_one]
    exact Nat.le_max_right dim.toNat 1

/-- `StubEmbed::default`. -/
def default : StubEmbed := new 64

section Loop

variable (e : StubEmbed) (lower : Text → Text) {A : Type}

/-- The bucket of a word. -/
def bucket (word : Text) : Nat := (fnv (utf8 (lower word))).toNat % e.dim.toNat

/-- The buckets of the words of a text. -/
def buckets (text : Text) : List Nat := (splitWhitespace text).map (e.bucket lower)

/-- The loop over the words, from `zero` in every bucket. An index out of bounds would panic. -/
def tally (raise : A → A) (zero : A) (text : Text) : Option (List A) :=
  Histogram.tally raise (List.replicate e.dim.toNat zero) (e.buckets lower text)

/-- The exact number of words in each bucket. -/
def counts (text : Text) : Option (List Nat) := e.tally lower (· + 1) 0 text

end Loop

section Passage

variable (e : StubEmbed) (lower : Text → Text) {F S : Type} [LinearOrder S] (o : F32 F S) (one : F)

/-- The Euclidean norm. -/
def norm (v : List F) : F := o.sqrt (v.foldl (fun sum x => o.add sum (o.mul x x)) o.zero)

/-- Divide by the norm, unless it is not positive. -/
def normalise (v : List F) : List F :=
  if o.partialCmp (norm o v) o.zero = some .gt then v.map fun x => o.div x (norm o v) else v

/-- The embedding of a text; `none` is a panic. -/
def passage (text : Text) : Option (List F) :=
  (e.tally lower (fun x => o.add x one) o.zero text).map (normalise o)

/-- The backend of an ingest run. It has no state. -/
def embed : Embed StubEmbed F where
  dim e := e.dim
  passage e text :=
    match e.passage lower o one text with
    | some v => (e, .ok v)
    -- the panic, which never happens: `passage_eq`
    | none => (e, .error "index out of bounds")

end Passage

/-! ## Words and buckets -/

section Buckets

variable {e : StubEmbed} {lower : Text → Text} {a b w text : Text} {A : Type}

theorem bucket_lt (word : Text) : e.bucket lower word < e.dim.toNat :=
  Nat.mod_lt _ e.positive

theorem lt_of_mem_buckets : ∀ i ∈ e.buckets lower text, i < e.dim.toNat := by
  intro i hi
  obtain ⟨word, -, rfl⟩ := List.mem_map.1 hi
  exact bucket_lt word

theorem buckets_append_blank (hne : w ≠ []) (hw : ∀ c ∈ w, isWhitespace c = true) :
    e.buckets lower (a ++ w ++ b) = e.buckets lower a ++ e.buckets lower b := by
  rw [buckets, splitWhitespace_append_blank hne hw, List.map_append]
  rfl

/-- The bucket of a word depends on the lowercased word. -/
theorem buckets_perm
    (h : ((splitWhitespace a).map lower).Perm ((splitWhitespace b).map lower)) :
    (e.buckets lower a).Perm (e.buckets lower b) := by
  have hmap : ∀ text : Text, e.buckets lower text =
      ((splitWhitespace text).map lower).map fun word => (fnv (utf8 word)).toNat % e.dim.toNat := by
    intro text
    rw [buckets, List.map_map]
    rfl
  rw [hmap, hmap]
  exact h.map _

/-- The loop does not panic, and a bucket is raised once for each of its words. -/
theorem tally_eq (raise : A → A) (zero : A) (text : Text) : e.tally lower raise zero text =
    some ((Histogram.counts e.dim.toNat (e.buckets lower text)).map fun k => raise^[k] zero) :=
  Histogram.tally_replicate lt_of_mem_buckets

theorem counts_eq (text : Text) :
    e.counts lower text = some (Histogram.counts e.dim.toNat (e.buckets lower text)) := by
  rw [counts, tally_eq]
  simp

end Buckets

/-- Stub embeddings are bags of words, before the normalisation: no index is out of bounds, the
counts add up to the number of words, white space between texts adds their counts, and only the
multiset of the lowercased words counts. -/
theorem bagOfWords (lower : Text → Text) (dim : UInt32) : ∃ counts : Text → List Nat,
    (∀ text, (new dim).counts lower text = some (counts text)) ∧
      (∀ word, (new dim).bucket lower word < max dim.toNat 1) ∧
      (∀ text, (counts text).length = max dim.toNat 1) ∧
      (∀ text, (counts text).sum = (splitWhitespace text).length) ∧
      (∀ a w b, w ≠ [] → (∀ c ∈ w, isWhitespace c = true) →
        counts (a ++ w ++ b) = List.zipWith (· + ·) (counts a) (counts b)) ∧
      ∀ a b, ((splitWhitespace a).map lower).Perm ((splitWhitespace b).map lower) →
        counts a = counts b := by
  have hdim : (new dim).dim.toNat = max dim.toNat 1 := toNat_max_one dim
  refine ⟨fun text => Histogram.counts (new dim).dim.toNat ((new dim).buckets lower text),
    counts_eq, ?_, ?_, ?_, ?_, ?_⟩
  · intro word
    rw [← hdim]
    exact bucket_lt word
  · intro text
    rw [Histogram.length_counts, hdim]
  · intro text
    rw [Histogram.sum_counts lt_of_mem_buckets, buckets, List.length_map]
  · intro a w b hne hw
    dsimp only
    rw [buckets_append_blank hne hw, Histogram.counts_append]
  · intro a b h
    apply Histogram.counts_perm
    exact buckets_perm h

/-- One dimension, asked for as zero: the words in another order and case, and a text in halves. -/
theorem bagOfWords_fish : ∃ counts : Text → List Nat,
    (∀ text, (new 0).counts (List.map Char.toLower) text = some (counts text)) ∧
      counts "One fish two fish".toList = counts "fish\ttwo FISH one".toList ∧
      counts "One fish two fish".toList =
        List.zipWith (· + ·) (counts "One fish".toList) (counts "two fish".toList) := by
  obtain ⟨counts, hcounts, -, -, -, hadd, hperm⟩ := bagOfWords (List.map Char.toLower) 0
  refine ⟨counts, hcounts, ?_, ?_⟩
  · apply hperm
    decide +kernel
  · have hspace : ∀ c ∈ [' '], isWhitespace c = true := List.forall_mem_singleton.2 rfl
    exact hadd "One fish".toList [' '] "two fish".toList (List.cons_ne_nil _ _) hspace

/-! ## The embedding -/

section Passage

variable {e : StubEmbed} {lower : Text → Text} {F S : Type} [LinearOrder S] {o : F32 F S} {one : F}

theorem length_normalise (v : List F) : (normalise o v).length = v.length := by
  rw [normalise]
  split
  · exact List.length_map _
  · rfl

/-- The embedding is that of the counts: a bucket of `k` words holds `k` ones, added one by one. -/
theorem passage_eq (text : Text) : e.passage lower o one text =
    (e.counts lower text).map fun v =>
      normalise o (v.map fun k => (fun x => o.add x one)^[k] o.zero) := by
  rw [passage, tally_eq, counts_eq]
  rfl

/-- The stub keeps to its announced dimension. -/
theorem sized (e : StubEmbed) : (embed lower o one).Sized (fun s => s = e) e.dim where
  announced := by
    rintro _ rfl
    rfl
  closed := by
    rintro _ text rfl
    rw [embed]
    dsimp only
    rw [passage_eq, counts_eq]
    rfl
  length := by
    rintro _ text v rfl hv
    rw [embed] at hv
    dsimp only at hv
    rw [passage_eq, counts_eq] at hv
    obtain rfl := Except.ok.inj hv
    rw [length_normalise, List.length_map, Histogram.length_counts]

end Passage

end StubEmbed

end SkegRigging.Ingest
