import Mathlib.Data.List.Sort
import SkegRigging.Adapter.Tenant

/-!
# A small exact engine

A concrete `DiskVamanaIndex` that keeps its vectors in one log, `delta.log`, next to the two marker
files, and searches by sorting. It satisfies everything the model of the engine asks (`model`,
`getExact`, `exactSearch`), so the results about all engines have an instance, and a run over it can
be evaluated. Similarity is the negated distance of the first components.
-/

set_option autoImplicit false

namespace SkegRigging.Reference

open DiskVamanaIndex

/-- The content of an engine file: the dimension and one vector per id. A marker file has none. -/
structure Log where
  dim : Nat
  entries : List (UInt64 × List Int)
  nodup : (entries.map Prod.fst).Nodup

namespace Log

def empty (dim : Nat) : Log := ⟨dim, [], List.nodup_nil⟩

def insert (log : Log) (id : UInt64) (v : List Int) : Log :=
  ⟨log.dim, Keyed.upsert Prod.fst (id, v) log.entries, Keyed.nodup_upsert Prod.fst log.nodup⟩

/-- The vector of an id. -/
def vector (log : Log) (id : UInt64) : Option (List Int) :=
  (Keyed.find Prod.fst id log.entries).map Prod.snd

theorem vector_insert (log : Log) (id : UInt64) (v : List Int) :
    (log.insert id v).vector = Function.update log.vector id (some v) := by
  funext k
  rw [vector, insert, Keyed.find_upsert]
  by_cases hk : k = id
  · simp [hk]
  · simp [hk, vector]

end Log

/-- Similarity of two vectors. -/
def similarity (q v : List Int) : Int := -((q.headD 0 - v.headD 0).natAbs : Int)

/-- Best first. -/
def better (a b : UInt64 × Int) : Prop := b.2 ≤ a.2

instance : DecidableRel better := fun a b => inferInstanceAs (Decidable (b.2 ≤ a.2))

instance : IsTrans (UInt64 × Int) better := ⟨fun _ _ _ hab hbc => le_trans hbc hab⟩

instance : Std.Total better := ⟨fun a b => le_total b.2 a.2⟩

/-- The entries with their similarity, best first. -/
def ranked (log : Log) (q : List Int) : List (UInt64 × Int) :=
  (log.entries.map fun p => (p.1, similarity q p.2)).insertionSort better

/-- The engine fails a call when the environment says so. -/
def failure : IoError := ⟨.other, "Input/output error"⟩

/-- The engine files of a directory. -/
abbrev LogFiles : Type := String → Option Log

/-- Write the files of an index: both markers and the log. -/
def writeIndex (files : LogFiles) (log : Log) : LogFiles :=
  Function.update (Function.update (Function.update files "tier.kind" (some (.empty 0)))
    "delta.log" (some log)) "CURRENT" (some (.empty 0))

/-- The log of a directory that holds an index. -/
def readIndex (files : LogFiles) : Option Log :=
  (files "tier.kind").bind fun _ => files "delta.log"

def createEmpty (fails : Bool) (files : LogFiles) (dim : Nat) : LogFiles × Except IoError Log :=
  if fails then (files, .error failure) else (writeIndex files (.empty dim), .ok (.empty dim))

def openIndex (fails : Bool) (files : LogFiles) : LogFiles × Except IoError Log :=
  match readIndex files with
  | none => (files, .error ⟨.notFound, "No such file or directory (os error 2)"⟩)
  | some log => if fails then (files, .error failure) else (files, .ok log)

def insert (fails : Bool) (files : LogFiles) (log : Log) (id : UInt64) (v : List Int) :
    (LogFiles × Log) × Except IoError Unit :=
  if fails then ((files, log), .error failure)
  else ((writeIndex files (log.insert id v), log.insert id v), .ok ())

def consolidate (fails : Bool) (files : LogFiles) (log : Log) :
    (LogFiles × Log) × Except IoError Unit :=
  if fails then ((files, log), .error failure) else ((writeIndex files log, log), .ok ())

def engine : DiskVamanaIndex Int Int where
  Content := Log
  Handle := Log
  Env := Bool
  createEmpty fails files dim _ := createEmpty fails files dim
  openIndex := openIndex
  dim := Log.dim
  insert := insert
  consolidate := consolidate
  get log id := .ok (log.vector id)
  search log q n := .ok ((ranked log q).take n)

/-! ## The engine is a model -/

/-- The vectors that the files hold. -/
def storedVectors (files : LogFiles) (id : UInt64) : Option (List Int) :=
  (readIndex files).bind fun log => log.vector id

theorem readIndex_writeIndex (files : LogFiles) (log : Log) :
    readIndex (writeIndex files log) = some log := by
  simp [readIndex, writeIndex]

/-- The files of an index are its two markers and its log. -/
theorem isSome_writeIndex (files : LogFiles) (log : Log) (name : String) :
    (writeIndex files log name).isSome = true ↔
      (name = "tier.kind" ∨ name = "delta.log" ∨ name = "CURRENT") ∨
        (files name).isSome = true := by
  by_cases hcur : name = "CURRENT"
  · simp [writeIndex, hcur]
  · by_cases hlog : name = "delta.log"
    · simp [writeIndex, hlog]
    · by_cases hkind : name = "tier.kind"
      · simp [writeIndex, hkind]
      · simp [writeIndex, hcur, hlog, hkind]

theorem storedVectors_eq {files : LogFiles} {log : Log} (h : readIndex files = some log) :
    storedVectors files = log.vector := by
  funext id
  rw [storedVectors, h, Option.bind_some]

theorem marks_of_readIndex {files : LogFiles} {log : Log} (h : readIndex files = some log) :
    (files "tier.kind").isSome = true := by
  obtain ⟨mark, hmark, -⟩ := Option.bind_eq_some_iff.1 h
  rw [hmark]
  rfl

theorem storedVectors_of_absent {files : LogFiles} (h : (files "tier.kind").isSome = false) :
    storedVectors files = fun _ => none := by
  have hmark : files "tier.kind" = none := by simpa using h
  funext id
  rw [storedVectors, readIndex, hmark, Option.bind_none, Option.bind_none]

theorem createEmpty_cases {fails : Bool} {files files' : LogFiles} {dim : Nat}
    {r : Except IoError Log} (h : createEmpty fails files dim = (files', r)) :
    (files' = files ∧ r = .error failure) ∨ (files' = writeIndex files (.empty dim) ∧
      r = .ok (.empty dim)) := by
  cases fails with
  | true => exact Or.inl (by simpa [createEmpty, eq_comm] using h)
  | false => exact Or.inr (by simpa [createEmpty, eq_comm] using h)

theorem openIndex_cases {fails : Bool} {files files' : LogFiles} {r : Except IoError Log}
    (h : openIndex fails files = (files', r)) :
    files' = files ∧ ∀ log, r = .ok log → readIndex files = some log := by
  unfold openIndex at h
  cases hlog : readIndex files with
  | none =>
    rw [hlog] at h
    simp only [Prod.mk.injEq] at h
    obtain ⟨rfl, rfl⟩ := h
    exact ⟨rfl, fun log hr => by simp at hr⟩
  | some log =>
    rw [hlog] at h
    cases fails with
    | true =>
      simp only [if_true, Prod.mk.injEq] at h
      obtain ⟨rfl, rfl⟩ := h
      exact ⟨rfl, fun log hr => by simp at hr⟩
    | false =>
      simp only [Bool.false_eq_true, if_false, Prod.mk.injEq] at h
      obtain ⟨rfl, rfl⟩ := h
      exact ⟨rfl, fun log' hr => by rw [Except.ok.inj hr]⟩

theorem insert_cases {fails : Bool} {files files' : LogFiles} {log log' : Log} {id : UInt64}
    {v : List Int} {r : Except IoError Unit}
    (h : insert fails files log id v = ((files', log'), r)) :
    (files' = files ∧ log' = log ∧ r = .error failure) ∨
      (files' = writeIndex files (log.insert id v) ∧ log' = log.insert id v ∧ r = .ok ()) := by
  cases fails with
  | true => exact Or.inl (by simpa [insert, eq_comm, and_assoc] using h)
  | false => exact Or.inr (by simpa [insert, eq_comm, and_assoc] using h)

theorem consolidate_cases {fails : Bool} {files files' : LogFiles} {log log' : Log}
    {r : Except IoError Unit} (h : consolidate fails files log = ((files', log'), r)) :
    log' = log ∧ (files' = files ∨ files' = writeIndex files log) := by
  cases fails with
  | true =>
    simp only [consolidate, if_true, Prod.mk.injEq] at h
    exact ⟨h.1.2.symm, Or.inl h.1.1.symm⟩
  | false =>
    simp only [consolidate, Bool.false_eq_true, if_false, Prod.mk.injEq] at h
    exact ⟨h.1.2.symm, Or.inr h.1.1.symm⟩

def model : engine.Model where
  vectors := Log.vector
  stored := storedVectors
  attached files log := readIndex files = some log
  durable h := storedVectors_eq h
  marks h := by
    rw [indexExists]
    exact Bool.or_eq_true_iff.2 (Or.inl (marks_of_readIndex h))
  absent h := storedVectors_of_absent (Bool.or_eq_false_iff.1 h).1
  create_ok h := by
    rcases createEmpty_cases h with ⟨-, hr⟩ | ⟨rfl, hr⟩
    · simp at hr
    · cases hr
      exact ⟨readIndex_writeIndex _ _, rfl⟩
  create_error _ h := by
    rcases createEmpty_cases h with ⟨rfl, -⟩ | ⟨-, hr⟩
    · rfl
    · simp at hr
  open_ok h := by
    obtain ⟨rfl, hlog⟩ := openIndex_cases h
    exact ⟨hlog _ rfl, (storedVectors_eq (hlog _ rfl)).symm⟩
  open_error h := by
    obtain ⟨rfl, -⟩ := openIndex_cases h
    exact ⟨rfl, fun hex => hex⟩
  insert_ok _ h := by
    rcases insert_cases h with ⟨-, -, hr⟩ | ⟨rfl, rfl, -⟩
    · simp at hr
    · exact ⟨readIndex_writeIndex _ _, Log.vector_insert _ _ _⟩
  insert_error hatt h := by
    rcases insert_cases h with ⟨rfl, rfl, -⟩ | ⟨-, -, hr⟩
    · exact ⟨hatt, rfl⟩
    · simp at hr
  consolidate_any hatt h := by
    obtain ⟨rfl, rfl | rfl⟩ := consolidate_cases h
    · exact ⟨hatt, rfl⟩
    · exact ⟨readIndex_writeIndex _ _, rfl⟩

theorem getExact : GetExact model := fun _ _ => rfl

/-! ## An engine that checks the length -/

/-- An insert that takes vectors of the index's own dimension only. -/
def insertChecked (fails : Bool) (files : LogFiles) (log : Log) (id : UInt64) (v : List Int) :
    (LogFiles × Log) × Except IoError Unit :=
  if v.length = log.dim ∧ v.length < 2 ^ 32 then insert fails files log id v
  else ((files, log), .error failure)

theorem insertChecked_cases {fails : Bool} {files files' : LogFiles} {log log' : Log} {id : UInt64}
    {v : List Int} {r : Except IoError Unit}
    (h : insertChecked fails files log id v = ((files', log'), r)) :
    (files' = files ∧ log' = log ∧ r = .error failure) ∨
      (v.length < 2 ^ 32 ∧ insert fails files log id v = ((files', log'), r)) := by
  unfold insertChecked at h
  split at h
  · rename_i hlen
    exact Or.inr ⟨hlen.2, h⟩
  · simp only [Prod.mk.injEq] at h
    exact Or.inl ⟨h.1.1.symm, h.1.2.symm, h.2.symm⟩

/-- The engine with the check in its `insert`. -/
def checkedEngine : DiskVamanaIndex Int Int := { engine with insert := insertChecked }

def checkedModel : checkedEngine.Model where
  vectors := model.vectors
  stored := model.stored
  attached := model.attached
  durable := model.durable
  marks := model.marks
  absent := model.absent
  create_ok {_ _ _ l _ _} h := model.create_ok (l := l) h
  create_error {_ _ _ l _ _} hindex h := model.create_error (l := l) hindex h
  open_ok := model.open_ok
  open_error := model.open_error
  insert_ok hatt h := by
    rcases insertChecked_cases h with ⟨-, -, hr⟩ | ⟨-, hins⟩
    · simp at hr
    · exact model.insert_ok hatt hins
  insert_error hatt h := by
    rcases insertChecked_cases h with ⟨rfl, rfl, -⟩ | ⟨-, hins⟩
    · exact ⟨hatt, rfl⟩
    · exact model.insert_error hatt hins
  consolidate_any := model.consolidate_any

/-! ## The search is exact -/

theorem map_fst_ranked (log : Log) (q : List Int) :
    ((ranked log q).map Prod.fst).Perm (log.entries.map Prod.fst) := by
  have h := (List.perm_insertionSort better (log.entries.map fun p => (p.1, similarity q p.2))).map
    Prod.fst
  rwa [List.map_map] at h

theorem mem_ranked {log : Log} {q : List Int} {id : UInt64} {s : Int} :
    (id, s) ∈ ranked log q ↔ (log.vector id).map (similarity q) = some s := by
  have hperm : (id, s) ∈ ranked log q ↔ ∃ p ∈ log.entries, (p.1, similarity q p.2) = (id, s) := by
    rw [ranked, (List.perm_insertionSort better _).mem_iff, List.mem_map]
  rw [hperm, Log.vector, Option.map_map, Option.map_eq_some_iff]
  constructor
  · rintro ⟨p, hp, heq⟩
    cases heq
    exact ⟨p, Keyed.find_of_mem Prod.fst log.nodup hp, rfl⟩
  · rintro ⟨p, hp, rfl⟩
    have hid : p.1 = id := Keyed.key_of_find Prod.fst hp
    exact ⟨p, Keyed.mem_of_find Prod.fst hp, by rw [hid]; rfl⟩

theorem isTop_ranked (log : Log) (q : List Int) (n : Nat) :
    TopK.IsTop (fun id => (log.vector id).map (similarity q)) n ((ranked log q).take n) := by
  have hsorted : (ranked log q).Pairwise better := List.pairwise_insertionSort better _
  refine ⟨?_, ?_, ?_, List.length_take_le n _, ?_⟩
  · have hnd : ((ranked log q).map Prod.fst).Nodup := (map_fst_ranked log q).nodup_iff.2 log.nodup
    exact hnd.sublist ((List.take_sublist n _).map _)
  · intro p hp
    exact mem_ranked.1 (List.mem_of_mem_take hp)
  · exact hsorted.sublist (List.take_sublist n _)
  · intro id s hs hout
    have hmem : (id, s) ∈ ranked log q := mem_ranked.2 hs
    rw [← List.take_append_drop n (ranked log q), List.mem_append] at hmem
    have hdrop : (id, s) ∈ (ranked log q).drop n := by
      rcases hmem with htake | hdrop
      · exact absurd (List.mem_map_of_mem htake) hout
      · exact hdrop
    -- an id beyond the cut means that the cut is full
    have hlt : n < (ranked log q).length := by
      by_contra hge
      rw [List.drop_eq_nil_of_le (Nat.not_lt.1 hge)] at hdrop
      simp at hdrop
    refine ⟨List.length_take_of_le (Nat.le_of_lt hlt), ?_⟩
    intro p hp
    exact TopK.le_of_mem_take_of_mem_drop hsorted hp hdrop

theorem exactSearch : ExactSearch model similarity := fun log q n =>
  ⟨(ranked log q).take n, rfl, isTop_ranked log q n⟩

/-! ## Environments -/

/-- Nothing fails during an open. -/
def quiet : OpenEnv engine :=
  { createDirAll := none, readMeta := none, engine := false, writeMeta := .done }

/-- The tenant directory of the examples. -/
def home : PathBuf := { absolute := true, components := ["srv", "tenant"] }

end SkegRigging.Reference
