import Mathlib.Algebra.Ring.Nat
import Mathlib.Data.List.Basic

/-!
# The engine-neutral contract

The types of the crate `skeg-rigging` that both tenants share: ids, search metadata and hits, the
error enums, events with their filter, the channels behind a subscription, and quotas.

`f32` components and similarities stay type parameters `F` and `S`: neither tenant computes with a
component outside `cosine`, they copy it. A channel keeps the list of every event sent on it, so
what a stream has been sent is read off the channel (`Channel.queue`).
-/

set_option autoImplicit false

namespace SkegRigging

/-- Raw bytes, `Vec<u8>` and `Bytes` of the source. -/
abbrev Bytes := List UInt8

/-! ## Ids -/

/-- `RecordId(pub u64)`. -/
structure RecordId where
  val : UInt64
  deriving DecidableEq, Repr

theorem RecordId.val_inj {a b : RecordId} : a.val = b.val ↔ a = b := by
  cases a
  cases b
  simp

/-- `TenantId(pub [u8; 16])`. -/
structure TenantId where
  bytes : Vector UInt8 16
  deriving DecidableEq, Repr

/-- The all-zero id. -/
def TenantId.zero : TenantId := ⟨Vector.replicate 16 0⟩

/-- The conversion `n as u32` of a `usize`. -/
def asU32 (n : Nat) : UInt32 := UInt32.ofNat n

theorem toNat_asU32 (n : Nat) : (asU32 n).toNat = n % 2 ^ 32 := UInt32.toNat_ofNat'

/-! ## Errors -/

/-- The kinds of `std::io::ErrorKind` that the crates name. -/
inductive ErrorKind
  | notFound
  | permissionDenied
  | alreadyExists
  | invalidData
  | other
  deriving DecidableEq, Repr

/-- `std::io::Error`: a kind and a text. -/
structure IoError where
  kind : ErrorKind
  message : String
  deriving DecidableEq, Repr

/-- Errors of a filtered search. -/
inductive QueryError
  | embeddingDimMismatch (expected got : UInt32)
  | indexCorrupted (message : String)
  | io (error : IoError)
  deriving DecidableEq, Repr

/-- Errors of opening and managing a tenant. -/
inductive OpenError
  | notFound
  | permissionDenied
  | format (message : String)
  | io (error : IoError)
  deriving DecidableEq, Repr

/-- `From<std::io::Error> for OpenError`. -/
def OpenError.ofIo (e : IoError) : OpenError :=
  match e.kind with
  | .notFound => .notFound
  | .permissionDenied => .permissionDenied
  | _ => .io e

/-! ## Paths -/

/-- `PathBuf`: whether the path starts at the root, and its components. -/
structure PathBuf where
  absolute : Bool
  components : List String
  deriving DecidableEq, Repr

/-- `Path::display`. -/
def PathBuf.display (p : PathBuf) : String :=
  (if p.absolute then "/" else "") ++ "/".intercalate p.components

/-- `Path::join` with a single name. -/
def PathBuf.join (p : PathBuf) (name : String) : PathBuf :=
  { p with components := p.components ++ [name] }

/-- `Path::file_name`. -/
def PathBuf.fileName (p : PathBuf) : Option String :=
  match p.components.getLast? with
  | some name => if name = "." ∨ name = ".." then none else some name
  | none => none

/-- `Path::extension`: what follows the last dot of the file name, unless that dot is its first
character. -/
def PathBuf.extension (p : PathBuf) : Option String :=
  match p.fileName with
  | none => none
  | some name =>
    let reversed := name.toList.reverse
    let after := reversed.takeWhile (· ≠ '.')
    match reversed.drop after.length with
    -- no dot, or only the dot that begins a name such as `.gitignore`
    | [] | [_] => none
    | _ => some (String.ofList after.reverse)

/-- `Path::strip_prefix`: the components of `p` that follow those of `base`. -/
def PathBuf.stripPrefix (p base : PathBuf) : Option PathBuf :=
  if base.absolute = p.absolute then
    if base.components <+: p.components then
      some ⟨false, p.components.drop base.components.length⟩
    else none
  -- every path starts with the empty relative path
  else if base.absolute = false ∧ base.components = [] then some p
  else none

/-! ## Filtered search -/

/-- Metadata view of a candidate record. -/
structure RecordMeta where
  recordId : RecordId
  shareable : Bool
  tags : List String
  deriving DecidableEq, Repr

/-- The caller's predicate on candidates. -/
abbrev Filter := RecordMeta → Bool

/-- A search hit. `embedding` is `none` where the backend could not return the vector. -/
structure Hit (F S : Type) where
  recordId : RecordId
  similarity : S
  payload : Bytes
  embedding : Option (List F)
  deriving DecidableEq, Repr

/-! ## Events -/

/-- One observable change of a tenant. `builtAt` is the wall-clock time in nanoseconds. -/
inductive Event
  | recordInserted (recordId : RecordId) (shareable : Bool)
  | recordDeleted (recordId : RecordId)
  | sagaRebuilt (tenantId : TenantId) (builtAt : Int)
  | hansaMemberJoined (tenantId : TenantId)
  | hansaMemberLeft (tenantId : TenantId)
  deriving DecidableEq, Repr

/-- How a consumer replays an event: an insert sets the flag of its id and a delete removes it. -/
def writeOf : Event → Option (RecordId × Option Bool)
  | .recordInserted id shareable => some (id, some shareable)
  | .recordDeleted id => some (id, none)
  | .sagaRebuilt _ _ => none
  | .hansaMemberJoined _ => none
  | .hansaMemberLeft _ => none

/-- Events as writes of an id-to-flag map. -/
def writes (es : List Event) : List (RecordId × Option Bool) := es.filterMap writeOf

@[simp] theorem writes_append (es es' : List Event) :
    writes (es ++ es') = writes es ++ writes es' :=
  List.filterMap_append

inductive EventKind
  | recordInserted
  | recordDeleted
  | sagaRebuilt
  | hansaMemberJoined
  | hansaMemberLeft
  deriving DecidableEq, Repr

def Event.kind : Event → EventKind
  | .recordInserted _ _ => .recordInserted
  | .recordDeleted _ => .recordDeleted
  | .sagaRebuilt _ _ => .sagaRebuilt
  | .hansaMemberJoined _ => .hansaMemberJoined
  | .hansaMemberLeft _ => .hansaMemberLeft

/-- A subscription's allow-list by event kind. -/
structure EventFilter where
  recordInserted : Bool
  recordDeleted : Bool
  sagaRebuilt : Bool
  hansaMemberJoined : Bool
  hansaMemberLeft : Bool
  deriving DecidableEq, Repr

namespace EventFilter

/-- `EventFilter::ALL`. -/
def all : EventFilter := ⟨true, true, true, true, true⟩

/-- `EventFilter::NONE`. -/
def none : EventFilter := ⟨false, false, false, false, false⟩

def accepts (f : EventFilter) (e : Event) : Bool :=
  match e.kind with
  | .recordInserted => f.recordInserted
  | .recordDeleted => f.recordDeleted
  | .sagaRebuilt => f.sagaRebuilt
  | .hansaMemberJoined => f.hansaMemberJoined
  | .hansaMemberLeft => f.hansaMemberLeft

theorem all_accepts (e : Event) : all.accepts e = true := by
  cases e <;> rfl

end EventFilter

/-- The channel behind one subscription, seen from the tenant's `Sender`: the stream it feeds, every
event sent so far, and whether the `EventStream` that holds the receiver is still alive. -/
structure Channel where
  stream : Nat
  queue : List Event
  live : Bool
  deriving DecidableEq, Repr

/-- `Sender::send`: fails when the receiver is gone. -/
def Channel.send (c : Channel) (e : Event) : Option Channel :=
  if c.live then some { c with queue := c.queue ++ [e] } else none

/-- `subs.retain(|s| s.send(event.clone()).is_ok())`: send to every subscriber, dropping the dead
ones. Both tenants emit this way. -/
def broadcast (e : Event) (subs : List Channel) : List Channel := subs.filterMap (·.send e)

/-- The drop of an `EventStream`: the receiver of its channel is gone, the sender is still there. -/
def dropReceiver (stream : Nat) (subs : List Channel) : List Channel :=
  subs.map fun c => if c.stream = stream then { c with live := false } else c

/-- A broadcast keeps the live channels and appends the event to each. -/
theorem broadcast_eq (e : Event) (subs : List Channel) :
    broadcast e subs =
      (subs.filter (·.live)).map fun c => { c with queue := c.queue ++ [e] } := by
  induction subs with
  | nil => rfl
  | cons c subs ih =>
    have hcons : broadcast e (c :: subs) = (c.send e).toList ++ broadcast e subs := by
      cases hc : c.send e with
      | none => simp [broadcast, hc]
      | some d => simp [broadcast, hc]
    rw [hcons, ih]
    cases hl : c.live with
    | true => simp [Channel.send, hl]
    | false => simp [Channel.send, hl]

/-- The events of a channel that a stream with filter `f` hands to its consumer. -/
def Channel.delivered (c : Channel) (f : EventFilter) : List Event := c.queue.filter f.accepts

theorem Channel.delivered_all (c : Channel) : c.delivered .all = c.queue := by
  rw [Channel.delivered, List.filter_eq_self]
  intro e _
  exact EventFilter.all_accepts e

/-! ## Quotas -/

/-- Caps on a tenant; `none` is unlimited. -/
structure Quota where
  maxBytes : Option Nat
  maxRecords : Option Nat
  deriving DecidableEq, Repr

/-- `Quota::UNLIMITED`. -/
def Quota.unlimited : Quota := ⟨none, none⟩

/-- Current consumption. -/
structure Usage where
  bytes : Nat
  records : Nat
  deriving DecidableEq, Repr

inductive QuotaError
  | exceeded (dimension : String) (cap attempted : Nat)
  | io (error : IoError)
  deriving DecidableEq, Repr

/-! ## Record insertion -/

/-- `TenantWrite`: a store of type `W` into which records can be inserted, with errors of type
`Err`. Each call gives the store afterwards. -/
structure TenantWrite (W F Err : Type) where
  insert : W → RecordId → List F → Bool → List String → Bytes → W × Except Err Unit
  flush : W → W × Except Err Unit
  embeddingDim : W → UInt32

end SkegRigging
