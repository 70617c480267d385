import Mathlib.Data.List.Forall2
import SkegRigging.Ingest.Embedder

/-!
# The Ollama backend

`OllamaEmbed` of `embed.rs`: the dimension is that of one probe, and each text is one request to
the endpoint. `call` keeps the numbers of `embeddings[0]` and drops what is no number, and no later
vector is compared with the dimension.

`OllamaEmbed.positional_iff` says for which responses the vector is nevertheless `embeddings[0]`,
with the announced dimension. An endpoint that only gives such responses is what an ingest run needs
(`OllamaEmbed.sized`).
-/

set_option autoImplicit false

namespace SkegRigging.Ingest

/-! ## JSON values -/

/-- `serde_json::Value`, with numbers as `as_f64` reads them. -/
inductive Value (N : Type)
  | null
  | bool (b : Bool)
  | number (n : N)
  | string (s : String)
  | array (items : List (Value N))
  | object (fields : List (String × Value N))

namespace Value

variable {N : Type}

/-- `value[name]`: `null` unless the value is an object with this key. -/
def key (name : String) : Value N → Value N
  | .object fields => (fields.lookup name).getD .null
  | _ => .null

/-- `value[i]`: `null` unless the value is an array with this index. -/
def index (i : Nat) : Value N → Value N
  | .array items => (items[i]?).getD .null
  | _ => .null

def asArray : Value N → Option (List (Value N))
  | .array items => some items
  | _ => none

def asF64 : Value N → Option N
  | .number n => some n
  | _ => none

theorem asF64_eq_some {x : Value N} {n : N} : x.asF64 = some n ↔ x = .number n := by
  cases x <;> simp [asF64]

end Value

/-! ## The endpoint -/

/-- The prefix of a query; a passage has none. -/
def queryPrefix : Text := "Represent this sentence for searching relevant passages: ".toList

/-- A request to the endpoint. The timeout is in seconds. -/
structure Request where
  url : String
  timeout : Nat
  model : String
  input : List Text
  deriving DecidableEq, Repr

/-- How a request ends: an error of the transport, a body that is not JSON, or a body. -/
inductive Response (N : Type)
  | unreachable (error : String)
  | undecodable
  | body (value : Value N)

/-- `body["embeddings"][0]`, where it is an array. -/
def Response.embedding {N : Type} : Response N → Option (List (Value N))
  | .body value => ((value.key "embeddings").index 0).asArray
  | .unreachable _ | .undecodable => none

/-- The request for one text. -/
def request (url model : String) (input : Text) : Request where
  url := url ++ "/api/embed"
  timeout := 60
  model := model
  input := [input]

section Decode

variable {N F : Type} (asF32 : N → F)

/-- The vector of an array: entries that are no numbers are dropped. -/
def decode (items : List (Value N)) : List F := items.filterMap fun x => x.asF64.map asF32

/-- The entry `x` of a vector is the number `item`. -/
def Reads (item : Value N) (x : F) : Prop := ∃ n, item = .number n ∧ x = asF32 n

variable {asF32}

theorem Reads.isSome {item : Value N} {x : F} (h : Reads asF32 item x) :
    item.asF64.isSome = true := by
  obtain ⟨n, rfl, -⟩ := h
  rfl

/-- The vector is the array, entry by entry, exactly when nothing was dropped. -/
theorem decode_reads_iff {items : List (Value N)} :
    List.Forall₂ (Reads asF32) items (decode asF32 items) ↔
      ∀ item ∈ items, item.asF64.isSome = true := by
  constructor
  · intro h item hitem
    -- a vector that is as long as the array has an entry for each of its items
    have hlength : (decode asF32 items).length = items.length := h.length_eq.symm
    have hsome := List.filterMap_length_eq_length.1 hlength item hitem
    rwa [Option.isSome_map] at hsome
  · intro h
    induction items with
    | nil => exact List.Forall₂.nil
    | cons item items ih =>
      obtain ⟨n, hn⟩ := Option.isSome_iff_exists.1 (h item List.mem_cons_self)
      have hdecode : decode asF32 (item :: items) = asF32 n :: decode asF32 items := by
        rw [decode, List.filterMap_cons_some (by rw [hn, Option.map_some])]
        rfl
      rw [hdecode]
      apply List.Forall₂.cons
      · exact ⟨n, Value.asF64_eq_some.1 hn, rfl⟩
      · exact ih fun item' hitem' => h item' (List.mem_cons_of_mem item hitem')

end Decode

/-! ## The backend -/

/-- An `Embed` backed by an endpoint. No dimension is zero. -/
structure OllamaEmbed where
  url : String
  model : String
  dim : UInt32
  positive : dim ≠ 0
  deriving DecidableEq

section Call

variable {M N F : Type} (post : M → Request → M × Response N) (asF32 : N → F)

/-- One round-trip to the endpoint. -/
def call (url model : String) (m : M) (input : Text) : M × Except String (List F) :=
  match post m (request url model input) with
  | (m, .unreachable e) =>
    (m, .error ("embedder unreachable at " ++ url ++ " (" ++ e ++
      "). Is Ollama running and is '" ++ model ++ "' pulled?"))
  | (m, .undecodable) => (m, .error "decode embed response")
  | (m, .body body) =>
    match ((body.key "embeddings").index 0).asArray with
    | none => (m, .error "embed response missing embeddings[0]")
    | some arr => (m, .ok (decode asF32 arr))

namespace OllamaEmbed

/-- Connect and probe the model for its embedding dimension. -/
def connect (url model : String) (m : M) : M × Except String OllamaEmbed :=
  match call post asF32 url model m "dimension probe".toList with
  | (m, .error message) => (m, .error message)
  | (m, .ok v) =>
    if h : asU32 v.length = 0 then
      (m, .error ("embedder '" ++ model ++ "' returned a zero-length vector"))
    else (m, .ok ⟨url, model, asU32 v.length, h⟩)

variable (e : OllamaEmbed)

def passage (m : M) (text : Text) : M × Except String (List F) :=
  call post asF32 e.url e.model m text

def query (m : M) (text : Text) : M × Except String (List F) :=
  call post asF32 e.url e.model m (queryPrefix ++ text)

end OllamaEmbed

/-- The backend of an ingest run. -/
def OllamaEmbed.embed : Embed (OllamaEmbed × M) F where
  dim s := s.1.dim
  passage s text :=
    let (m, result) := s.1.passage post asF32 s.2 text
    ((s.1, m), result)

/-- What is embedded is `embeddings[0]` of the response, and nothing else is a success. -/
theorem call_ok {url model : String} {m : M} {input : Text} {v : List F} :
    (call post asF32 url model m input).2 = .ok v ↔
      ∃ items, (post m (request url model input)).2.embedding = some items ∧
        v = decode asF32 items := by
  rw [call]
  rcases post m (request url model input) with ⟨m', e | - | body⟩
  · simp [Response.embedding]
  · simp [Response.embedding]
  · rw [Response.embedding]
    dsimp only
    cases ((body.key "embeddings").index 0).asArray with
    | none => simp
    | some items => simp [eq_comm]

end Call

/-! ## What a response may be -/

section Positional

variable {N F : Type}

/-- An error, or a vector with `dim` entries that are the entries of `embeddings[0]` in order, all
of them numbers. -/
def Positional (asF32 : N → F) (dim : UInt32) (response : Response N) :
    Except String (List F) → Prop
  | .error _ => True
  | .ok v => v.length = dim.toNat ∧
      ∃ items, response.embedding = some items ∧ List.Forall₂ (Reads asF32) items v

/-- `embeddings[0]`, where it is an array, has `dim` entries, all of them numbers. -/
def Response.Announced (dim : UInt32) (response : Response N) : Prop :=
  ∀ items, response.embedding = some items →
    items.length = dim.toNat ∧ ∀ item ∈ items, item.asF64.isSome = true

variable {M : Type} {post : M → Request → M × Response N} {asF32 : N → F}

theorem call_positional_iff {url model : String} {m : M} {input : Text} {dim : UInt32} :
    Positional asF32 dim (post m (request url model input)).2
        (call post asF32 url model m input).2 ↔
      (post m (request url model input)).2.Announced dim := by
  constructor
  · intro h items hitems
    have hcall : (call post asF32 url model m input).2 = .ok (decode asF32 items) :=
      (call_ok post asF32).2 ⟨items, hitems, rfl⟩
    rw [hcall] at h
    obtain ⟨hlength, items', hitems', hreads⟩ := h
    obtain rfl : items = items' := Option.some.inj (hitems.symm.trans hitems')
    rw [hreads.length_eq]
    exact ⟨hlength, decode_reads_iff.1 hreads⟩
  · intro h
    cases hcall : (call post asF32 url model m input).2 with
    | error message => trivial
    | ok v =>
      obtain ⟨items, hitems, rfl⟩ := (call_ok post asF32).1 hcall
      obtain ⟨hlength, hnumbers⟩ := h items hitems
      have hreads : List.Forall₂ (Reads asF32) items (decode asF32 items) :=
        decode_reads_iff.2 hnumbers
      exact ⟨by rw [← hreads.length_eq, hlength], items, hitems, hreads⟩

/-- A passage and a query are the numbers of `embeddings[0]`, in their places and as many as
announced, or an error, exactly when `embeddings[0]` of the response is no array, or an array of as
many numbers as announced. -/
theorem OllamaEmbed.positional_iff (e : OllamaEmbed) (post : M → Request → M × Response N)
    (asF32 : N → F) (m : M) (text : Text) :
    (Positional asF32 e.dim (post m (request e.url e.model text)).2
        (e.passage post asF32 m text).2 ↔
      (post m (request e.url e.model text)).2.Announced e.dim) ∧
    (Positional asF32 e.dim (post m (request e.url e.model (queryPrefix ++ text))).2
        (e.query post asF32 m text).2 ↔
      (post m (request e.url e.model (queryPrefix ++ text))).2.Announced e.dim) :=
  ⟨call_positional_iff, call_positional_iff⟩

/-- An endpoint that answers the first request with three numbers and every later one with two
numbers and a `null` between them. -/
def wobbly (answered : Nat) (_ : Request) : Nat × Response Int :=
  let middle := if answered = 0 then .number 2 else .null
  (answered + 1,
    .body (.object [("embeddings", .array [.array [.number 1, middle, .number 3]])]))

theorem OllamaEmbed.not_positional_wobbly : ∃ e : OllamaEmbed,
    connect wobbly id "http://localhost:11434" "mxbai-embed-large" 0 = (1, .ok e) ∧
      (e.passage wobbly id 1 "a passage".toList).2 = .ok [1, 3] ∧
      (e.query wobbly id 1 "a query".toList).2 = .ok [1, 3] ∧
      ¬ Positional id e.dim (wobbly 1 (request e.url e.model "a passage".toList)).2
        (e.passage wobbly id 1 "a passage".toList).2 := by
  refine ⟨⟨"http://localhost:11434", "mxbai-embed-large", 3, by decide⟩, rfl, rfl, rfl, ?_⟩
  rintro ⟨hlength, -⟩
  exact absurd hlength (by decide)

/-- With an endpoint that keeps to the announced dimension, so do the vectors of an ingest run. -/
theorem OllamaEmbed.sized (e : OllamaEmbed)
    (h : ∀ m input, (post m (request e.url e.model input)).2.Announced e.dim) :
    (OllamaEmbed.embed post asF32).Sized (fun s => s.1 = e) e.dim where
  announced := by
    rintro _ rfl
    rfl
  closed := by
    rintro _ text rfl
    rfl
  length := by
    rintro ⟨_, m⟩ text v rfl hv
    obtain ⟨items, hitems, rfl⟩ := (call_ok post asF32).1 hv
    obtain ⟨hlength, hnumbers⟩ := h m text items hitems
    rw [← (decode_reads_iff.2 hnumbers).length_eq, hlength]

end Positional

end SkegRigging.Ingest
