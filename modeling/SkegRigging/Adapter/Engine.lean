import SkegRigging.Library.TopK
import SkegRigging.Rigging.Contract

/-!
# The vector engine

`skeg_vector::DiskVamanaIndex` is not part of the repository. It enters the model as a parameter:
its file contents and open handles are opaque types, and what the operating system decides during a
call (an I/O error, say) is an argument of the call. `DiskVamanaIndex.Model` lists what the adapter
relies on.
-/

set_option autoImplicit false

namespace SkegRigging

/-- The engine as the adapter sees it. `Content` is the content of one engine file, `Handle` an
open index, and `Env` what the environment decides during one call. Every call that may write takes
the engine files of the directory, by name, and returns them. -/
structure DiskVamanaIndex (F S : Type) where
  Content : Type
  Handle : Type
  Env : Type
  createEmpty : Env → (String → Option Content) → Nat → Nat →
    (String → Option Content) × Except IoError Handle
  openIndex : Env → (String → Option Content) → (String → Option Content) × Except IoError Handle
  dim : Handle → Nat
  insert : Env → (String → Option Content) → Handle → UInt64 → List F →
    ((String → Option Content) × Handle) × Except IoError Unit
  consolidate : Env → (String → Option Content) → Handle →
    ((String → Option Content) × Handle) × Except IoError Unit
  get : Handle → UInt64 → Except IoError (Option (List F))
  search : Handle → List F → Nat → Except IoError (List (UInt64 × S))

namespace DiskVamanaIndex

variable {F S : Type}

/-- The engine files of a directory, by name. -/
abbrev Files (E : DiskVamanaIndex F S) : Type := String → Option E.Content

/-- `Tenant::index_exists`: `tier.kind` is the first file a create writes and `CURRENT` the last. -/
def indexExists {E : DiskVamanaIndex F S} (files : E.Files) : Bool :=
  (files "tier.kind").isSome || (files "CURRENT").isSome

/-- What the adapter relies on. `vectors h` are the vectors an open index serves, `stored files` the
vectors the files of a directory hold, and `attached files h` says that `h` is an open handle on
`files`. The fields say that an insert is durable once it returns and replaces exactly the given id,
that a failed insert, `consolidate` and `open` keep the stored vectors, and that an open index has
its marker files. -/
structure Model (E : DiskVamanaIndex F S) where
  vectors : E.Handle → UInt64 → Option (List F)
  stored : E.Files → UInt64 → Option (List F)
  attached : E.Files → E.Handle → Prop
  durable : ∀ {files h}, attached files h → stored files = vectors h
  marks : ∀ {files h}, attached files h → indexExists files = true
  absent : ∀ {files : E.Files}, indexExists files = false → stored files = fun _ => none
  create_ok : ∀ {env files d l files' h}, E.createEmpty env files d l = (files', .ok h) →
    attached files' h ∧ vectors h = fun _ => none
  create_error : ∀ {env files d l files' e}, indexExists files = false →
    E.createEmpty env files d l = (files', .error e) → stored files' = stored files
  open_ok : ∀ {env files files' h}, E.openIndex env files = (files', .ok h) →
    attached files' h ∧ vectors h = stored files
  open_error : ∀ {env files files' e}, E.openIndex env files = (files', .error e) →
    stored files' = stored files ∧ (indexExists files = true → indexExists files' = true)
  insert_ok : ∀ {env files h id v files' h'}, attached files h →
    E.insert env files h id v = ((files', h'), .ok ()) →
      attached files' h' ∧ vectors h' = Function.update (vectors h) id (some v)
  insert_error : ∀ {env files h id v files' h' e}, attached files h →
    E.insert env files h id v = ((files', h'), .error e) →
      attached files' h' ∧ vectors h' = vectors h
  consolidate_any : ∀ {env files h files' h' r}, attached files h →
    E.consolidate env files h = ((files', h'), r) → attached files' h' ∧ vectors h' = vectors h

/-- `get` returns the vector of an id, without an I/O error. -/
def GetExact {E : DiskVamanaIndex F S} (M : E.Model) : Prop :=
  ∀ h id, E.get h id = .ok (M.vectors h id)

/-- The search succeeds and is exact for the similarity `sim`. -/
def ExactSearch [LinearOrder S] {E : DiskVamanaIndex F S} (M : E.Model)
    (sim : List F → List F → S) : Prop :=
  ∀ h q n, ∃ l, E.search h q n = .ok l ∧
    TopK.IsTop (fun id => (M.vectors h id).map (sim q)) n l

end DiskVamanaIndex

end SkegRigging
