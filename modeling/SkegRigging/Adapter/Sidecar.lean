import SkegRigging.Library.Keyed
import SkegRigging.Rigging.Contract

/-!
# The metadata sidecar and its file

`MetadataSidecar` with its JSON file `meta.json`. `serde_json` is a parameter, `SerdeJson`, and
`SerdeJson.Laws` says what is relied on: a serialised sidecar reads back, and a proper prefix of one
does not parse. `std::fs::write` truncates the file and then writes its bytes, so a write that does
not complete leaves a prefix of the new bytes (`WriteOutcome`).
-/

set_option autoImplicit false

namespace SkegRigging

/-- Errors of tenant construction and persistence. -/
inductive TenantError
  | io (error : IoError)
  | json (message : String)
  | dimMismatch (onDisk requested : UInt32)
  | notFound (path : PathBuf)
  deriving DecidableEq, Repr

/-- The `Display` text of a dimension mismatch. -/
def TenantError.dimMismatchText (onDisk requested : UInt32) : String :=
  "embedding dim mismatch: tenant " ++ toString onDisk ++ ", requested " ++ toString requested

/-- `From<TenantError> for OpenError`. -/
def OpenError.ofTenantError : TenantError → OpenError
  | .io e => .io e
  | .notFound _ => .notFound
  | .json m => .io ⟨.invalidData, m⟩
  | .dimMismatch d r => .io ⟨.invalidData, TenantError.dimMismatchText d r⟩

/-- Per-record metadata. -/
structure RecordEntry where
  recordId : UInt64
  shareable : Bool
  tags : List String
  payload : Bytes
  deriving DecidableEq, Repr

/-- The serialised tenant metadata, records ordered by insertion. -/
structure MetadataSidecar where
  tenantId : TenantId
  embeddingDim : UInt32
  records : List RecordEntry
  deriving DecidableEq, Repr

namespace MetadataSidecar

def empty (tenantId : TenantId) (embeddingDim : UInt32) : MetadataSidecar :=
  { tenantId, embeddingDim, records := [] }

def get (s : MetadataSidecar) (id : RecordId) : Option RecordEntry :=
  Keyed.find RecordEntry.recordId id.val s.records

def isEmpty (s : MetadataSidecar) : Bool := s.records.isEmpty

/-- The record ids, in sidecar order. -/
def ids (s : MetadataSidecar) : List UInt64 := s.records.map RecordEntry.recordId

@[simp] theorem ids_empty (tenantId : TenantId) (dim : UInt32) :
    (empty tenantId dim).ids = [] := rfl

end MetadataSidecar

/-- `serde_json::to_vec` and `serde_json::from_slice` on sidecars. An error is its text. -/
structure SerdeJson where
  toVec : MetadataSidecar → Bytes
  fromSlice : Bytes → Except String MetadataSidecar

/-- What is relied on: a sidecar reads back, and a text cut before its end does not parse. -/
structure SerdeJson.Laws (J : SerdeJson) : Prop where
  roundTrip : ∀ s, J.fromSlice (J.toVec s) = .ok s
  truncated : ∀ s n, n < (J.toVec s).length → ∃ e, J.fromSlice ((J.toVec s).take n) = .error e

/-- What the operating system makes of one `std::fs::write`: it completes, it fails before it
touches the file, or it stops after the truncation and `n` bytes. -/
inductive WriteOutcome
  | done
  | refused (error : IoError)
  | stopped (n : Nat) (error : IoError)
  deriving DecidableEq, Repr

/-- `std::fs::write`: the new content of the file, and the result. -/
def fsWrite (o : WriteOutcome) (old : Option Bytes) (bytes : Bytes) :
    Option Bytes × Except IoError Unit :=
  match o with
  | .done => (some bytes, .ok ())
  | .refused e => (old, .error e)
  -- `File::create` has truncated the file; a stop past the last byte is a complete write
  | .stopped n e =>
    if n < bytes.length then (some (bytes.take n), .error e) else (some bytes, .ok ())

namespace MetadataSidecar

/-- Read the sidecar from the content of its file; `fail` is an I/O error of the read itself. -/
def readFromPath (J : SerdeJson) (fail : Option IoError) (content : Option Bytes) :
    Except TenantError MetadataSidecar :=
  match fail, content with
  | some e, _ => .error (.io e)
  | none, none => .error (.io ⟨.notFound, "No such file or directory (os error 2)"⟩)
  | none, some bytes =>
    match J.fromSlice bytes with
    | .ok s => .ok s
    | .error m => .error (.json m)

/-- Serialise and overwrite the file. -/
def writeToPath (J : SerdeJson) (o : WriteOutcome) (s : MetadataSidecar) (old : Option Bytes) :
    Option Bytes × Except TenantError Unit :=
  match fsWrite o old (J.toVec s) with
  | (content, .ok ()) => (content, .ok ())
  | (content, .error e) => (content, .error (.io e))

/-- A sidecar is read only from a file whose bytes parse to it. -/
theorem readFromPath_ok {J : SerdeJson} {fail : Option IoError} {content : Option Bytes}
    {s : MetadataSidecar} (h : readFromPath J fail content = .ok s) :
    ∃ bytes, content = some bytes ∧ J.fromSlice bytes = .ok s := by
  cases fail with
  | some e => simp [readFromPath] at h
  | none =>
    cases content with
    | none => simp [readFromPath] at h
    | some bytes =>
      rw [readFromPath] at h
      cases hp : J.fromSlice bytes with
      | error m =>
        rw [hp] at h
        simp at h
      | ok s' =>
        rw [hp] at h
        exact ⟨bytes, rfl, by rw [hp, Except.ok.inj h]⟩

/-- How a write ends: the file holds the new bytes and the call succeeded, or the call failed and
the file is unchanged or holds a proper prefix of the new bytes. -/
theorem writeToPath_cases (J : SerdeJson) (o : WriteOutcome) (s : MetadataSidecar)
    (old : Option Bytes) :
    writeToPath J o s old = (some (J.toVec s), .ok ()) ∨
      ∃ content e, writeToPath J o s old = (content, .error e) ∧
        (content = old ∨ ∃ n < (J.toVec s).length, content = some ((J.toVec s).take n)) := by
  cases o with
  | done => exact Or.inl rfl
  | refused e => exact Or.inr ⟨old, .io e, rfl, Or.inl rfl⟩
  | stopped n e =>
    by_cases hn : n < (J.toVec s).length
    · refine Or.inr ⟨some ((J.toVec s).take n), .io e, ?_, Or.inr ⟨n, hn, rfl⟩⟩
      simp only [writeToPath, fsWrite, if_pos hn]
    · apply Or.inl
      simp only [writeToPath, fsWrite, if_neg hn]

end MetadataSidecar

end SkegRigging
