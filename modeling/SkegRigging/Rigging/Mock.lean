import SkegRigging.Library.Keyed
import SkegRigging.Library.Runs
import SkegRigging.Rigging.Contract

/-!
# MockTenant: records, events and the byte quota

The in-memory tenant of `mock.rs`: insertion with its quota check, deletion, the accounting counters
and event emission. `MockTenant::insert` checks the quota only for an id that is not yet present
("overwrites of an existing `record_id` are always allowed"), so an overwrite with a larger row can
carry the tenant over its byte cap (`byteQuota_overwrite_exceeds`). Everything else respects the
cap: `byteQuota_run` bounds every state of a run whose overwrites fit, and shows that a new row that
does not fit is rejected.

Sizes are naturals. They are `u64` sums of the lengths of data held in memory.
-/

set_option autoImplicit false

namespace SkegRigging

open SkegRigging.Runs

/-- One record of a `MockTenant`. -/
structure MockRecord (F : Type) where
  recordId : RecordId
  embedding : List F
  shareable : Bool
  tags : List String
  payload : Bytes
  deriving DecidableEq, Repr

structure MockTenant (F : Type) where
  tenantId : TenantId
  dim : UInt32
  records : List (MockRecord F)
  quota : Quota
  subscribers : List Channel
  deriving DecidableEq, Repr

/-- How a call ends: with `Ok`, with `Err`, or in a panic. -/
inductive Outcome (α ε : Type)
  | ok (value : α)
  | err (error : ε)
  | panic (message : String)
  deriving DecidableEq, Repr

/-- Best effort byte estimate of one row: four bytes a component, the UTF-8 length of the tags, and
the payload. -/
def estimateSize {F : Type} (embedding : List F) (tags : List String) (payload : Bytes) : Nat :=
  4 * embedding.length + (tags.map String.utf8ByteSize).sum + payload.length

namespace MockTenant

variable {F : Type}

def new (tenantId : TenantId) (embeddingDim : UInt32) : MockTenant F :=
  { tenantId, dim := embeddingDim, records := [], quota := .unlimited, subscribers := [] }

def emit (t : MockTenant F) (event : Event) : MockTenant F :=
  { t with subscribers := broadcast event t.subscribers }

/-- `TenantEvents::subscribe`; `stream` names the new stream. The filter stays with the receiver. -/
def subscribe (t : MockTenant F) (stream : Nat) : MockTenant F :=
  { t with subscribers := t.subscribers ++ [{ stream, queue := [], live := true }] }

/-- The consumer drops the stream. -/
def dropStream (t : MockTenant F) (stream : Nat) : MockTenant F :=
  { t with subscribers := dropReceiver stream t.subscribers }

/-- `IterVectors::iter_vectors`. -/
def iterVectors (t : MockTenant F) : List (RecordId × List F) :=
  t.records.map fun r => (r.recordId, r.embedding)

def recordSize (r : MockRecord F) : Nat := estimateSize r.embedding r.tags r.payload

def bytesOnDisk (t : MockTenant F) : Nat := (t.records.map recordSize).sum

def recordCount (t : MockTenant F) : Nat := t.records.length

def currentUsage (t : MockTenant F) : Usage := ⟨t.bytesOnDisk, t.recordCount⟩

def setQuota (t : MockTenant F) (quota : Quota) : MockTenant F := { t with quota }

/-- The `Exceeded` error of one quota dimension, when its cap is below the value `attempted`. -/
def exceeds (dimension : String) (cap : Option Nat) (attempted : Nat) : Option QuotaError :=
  match cap with
  | some cap => if attempted > cap then some (.exceeded dimension cap attempted) else none
  | none => none

/-- The quota check of a growing insert: records first, then bytes. -/
def checkQuota (t : MockTenant F) (r : MockRecord F) : Option QuotaError :=
  match exceeds "records" t.quota.maxRecords (t.records.length + 1) with
  | some e => some e
  | none => exceeds "bytes" t.quota.maxBytes (t.bytesOnDisk + recordSize r)

/-- Insert or overwrite a record. The quota is consulted only when the id is new. -/
def insert (t : MockTenant F) (recordId : RecordId) (embedding : List F) (shareable : Bool)
    (tags : List String) (payload : Bytes) : MockTenant F × Outcome Unit QuotaError :=
  -- `assert_eq!` on the dimension
  if asU32 embedding.length ≠ t.dim then (t, .panic "MockTenant insert: dim mismatch")
  else
    let rec_ : MockRecord F := { recordId, embedding, shareable, tags, payload }
    let isOverwrite := t.records.any fun r => decide (r.recordId = recordId)
    -- an overwrite skips the whole quota check
    match if isOverwrite then none else t.checkQuota rec_ with
    | some e => (t, .err e)
    | none =>
      let records := Keyed.upsert MockRecord.recordId rec_ t.records
      (({ t with records }).emit (.recordInserted recordId shareable), .ok ())

/-- Remove a record; `true` when it was present. -/
def delete (t : MockTenant F) (recordId : RecordId) : MockTenant F × Bool :=
  let records := Keyed.remove MockRecord.recordId recordId t.records
  let removed := decide (records.length ≠ t.records.length)
  let t := { t with records }
  (if removed then t.emit (.recordDeleted recordId) else t, removed)

/-- `insert` with the arguments taken from a record. -/
def insertRecord (t : MockTenant F) (r : MockRecord F) : MockTenant F × Outcome Unit QuotaError :=
  t.insert r.recordId r.embedding r.shareable r.tags r.payload

/-- The stored record with the id of `r`. -/
def current (t : MockTenant F) (r : MockRecord F) : Option (MockRecord F) :=
  Keyed.find MockRecord.recordId r.recordId t.records

@[simp] theorem emit_bytesOnDisk (t : MockTenant F) (e : Event) :
    (t.emit e).bytesOnDisk = t.bytesOnDisk := rfl

/-- What `insertRecord` does: it panics, rejects the row, or stores it. -/
theorem insertRecord_cases (t : MockTenant F) (r : MockRecord F) :
    (asU32 r.embedding.length ≠ t.dim ∧ ∃ m, t.insertRecord r = (t, .panic m)) ∨
    (asU32 r.embedding.length = t.dim ∧ t.current r = none ∧
      ∃ e, t.checkQuota r = some e ∧ t.insertRecord r = (t, .err e)) ∨
    (asU32 r.embedding.length = t.dim ∧ (t.current r = none → t.checkQuota r = none) ∧
      t.insertRecord r =
        (({ t with records := Keyed.upsert MockRecord.recordId r t.records }).emit
          (.recordInserted r.recordId r.shareable), .ok ())) := by
  by_cases hdim : asU32 r.embedding.length = t.dim
  · have hany : (t.records.any fun x => decide (x.recordId = r.recordId)) = (t.current r).isSome :=
      Keyed.any_eq_find_isSome MockRecord.recordId r.recordId t.records
    have hunfold : t.insertRecord r =
        match if (t.current r).isSome then none else t.checkQuota r with
        | some e => (t, .err e)
        | none =>
          (({ t with records := Keyed.upsert MockRecord.recordId r t.records }).emit
            (.recordInserted r.recordId r.shareable), .ok ()) := by
      rw [insertRecord, insert, if_neg (not_not.2 hdim), hany]
    cases hcur : t.current r with
    | some old =>
      -- the id is present: the row is stored without a check
      refine Or.inr (Or.inr ⟨hdim, fun h => by simp at h, ?_⟩)
      rw [hunfold, hcur]
      rfl
    | none =>
      rw [hcur] at hunfold
      cases hq : t.checkQuota r with
      | some e =>
        refine Or.inr (Or.inl ⟨hdim, rfl, e, rfl, ?_⟩)
        rw [hunfold, hq]
        rfl
      | none =>
        refine Or.inr (Or.inr ⟨hdim, fun _ => rfl, ?_⟩)
        rw [hunfold, hq]
        rfl
  · refine Or.inl ⟨hdim, "MockTenant insert: dim mismatch", ?_⟩
    rw [insertRecord, insert, if_pos hdim]

theorem delete_records (t : MockTenant F) (id : RecordId) :
    (t.delete id).1.records = Keyed.remove MockRecord.recordId id t.records := by
  simp only [delete]
  split <;> rfl

theorem delete_quota (t : MockTenant F) (id : RecordId) : (t.delete id).1.quota = t.quota := by
  simp only [delete]
  split <;> rfl

theorem insertRecord_quota (t : MockTenant F) (r : MockRecord F) :
    (t.insertRecord r).1.quota = t.quota := by
  rcases t.insertRecord_cases r with ⟨-, m, h⟩ | ⟨-, -, e, -, h⟩ | ⟨-, -, h⟩ <;> rw [h]
  rfl

/-- A growing insert that would exceed the byte cap fails the quota check. -/
theorem checkQuota_of_bytes {t : MockTenant F} {r : MockRecord F} {cap : Nat}
    (hcap : t.quota.maxBytes = some cap) (h : cap < t.bytesOnDisk + recordSize r) :
    ∃ dimension c attempted, t.checkQuota r = some (.exceeded dimension c attempted) := by
  unfold checkQuota
  cases hrec : exceeds "records" t.quota.maxRecords (t.records.length + 1) with
  | none =>
    refine ⟨"bytes", cap, t.bytesOnDisk + recordSize r, ?_⟩
    rw [hcap]
    exact if_pos h
  -- the record cap was hit first, which is an `Exceeded` error as well
  | some e =>
    unfold exceeds at hrec
    split at hrec
    · split at hrec
      · simp only [Option.some.injEq] at hrec
        subst hrec
        exact ⟨_, _, _, rfl⟩
      · simp at hrec
    · simp at hrec

/-- A row that passes the quota check fits under the byte cap. -/
theorem bytes_le_of_checkQuota {t : MockTenant F} {r : MockRecord F} {cap : Nat}
    (hcap : t.quota.maxBytes = some cap) (h : t.checkQuota r = none) :
    t.bytesOnDisk + recordSize r ≤ cap := by
  by_contra hlt
  obtain ⟨d, c, a, he⟩ := checkQuota_of_bytes hcap (Nat.lt_of_not_le hlt)
  rw [h] at he
  simp at he

/-! ## Runs of inserts and deletes -/

/-- One call of a run: `insert` with the fields of a record, or `delete`. -/
inductive Call (F : Type)
  | insert (row : MockRecord F)
  | delete (recordId : RecordId)

def step (t : MockTenant F) : Call F → MockTenant F
  | .insert row => (t.insertRecord row).1
  | .delete id => (t.delete id).1

/-- An overwrite keeps the total within the cap: with the old row exchanged for the new one, the
bytes are at most `cap`. It says nothing about other calls. -/
def OverwriteFits (cap : Nat) (t : MockTenant F) : Call F → Prop
  | .insert row => ∀ old, t.current row = some old →
      t.bytesOnDisk + recordSize row ≤ cap + recordSize old
  | .delete _ => True

/-- The answer to an insert of a row of the right dimension under the cap: a new id that would
exceed it is rejected with `Exceeded` and changes nothing, and a present id is always accepted. -/
def QuotaAnswer (cap : Nat) (t : MockTenant F) : Call F → Prop
  | .insert row => asU32 row.embedding.length = t.dim →
      (t.current row = none → cap < t.bytesOnDisk + recordSize row →
        ∃ dimension c attempted, t.insertRecord row = (t, .err (.exceeded dimension c attempted))) ∧
      (t.current row ≠ none → (t.insertRecord row).2 = .ok ())
  | .delete _ => True

theorem quotaAnswer_of_maxBytes {t : MockTenant F} {cap : Nat}
    (hcap : t.quota.maxBytes = some cap) (call : Call F) : QuotaAnswer cap t call := by
  cases call with
  | delete id => trivial
  | insert row =>
    intro hdim
    rcases t.insertRecord_cases row with ⟨hne, -⟩ | ⟨-, hcur, e, he, h⟩ | ⟨-, hnone, h⟩
    · exact absurd hdim hne
    · refine ⟨?_, fun hcur' => absurd hcur hcur'⟩
      intro _ hlt
      obtain ⟨d, c, a, hd⟩ := checkQuota_of_bytes hcap hlt
      rw [he, Option.some.injEq] at hd
      exact ⟨d, c, a, by rw [h, hd]⟩
    · refine ⟨?_, fun _ => by rw [h]⟩
      intro hcur hlt
      have := bytes_le_of_checkQuota hcap (hnone hcur)
      omega

theorem step_quota (t : MockTenant F) (call : Call F) : (t.step call).quota = t.quota := by
  cases call with
  | insert row => exact t.insertRecord_quota row
  | delete id => exact t.delete_quota id

/-- One call keeps the total within the cap, as long as an overwrite fits. -/
theorem bytesOnDisk_step_le {t : MockTenant F} {cap : Nat} (hcap : t.quota.maxBytes = some cap)
    (hle : t.bytesOnDisk ≤ cap) {call : Call F} (hfit : OverwriteFits cap t call) :
    (t.step call).bytesOnDisk ≤ cap := by
  cases call with
  | delete id =>
    -- a delete never adds bytes
    have hsum := Keyed.sum_remove_le MockRecord.recordId recordSize id t.records
    have hbytes : (t.step (.delete id)).bytesOnDisk =
        ((Keyed.remove MockRecord.recordId id t.records).map recordSize).sum := by
      rw [step, bytesOnDisk, delete_records]
    rw [hbytes]
    exact hsum.trans hle
  | insert row =>
    rcases t.insertRecord_cases row with ⟨-, m, h⟩ | ⟨-, -, e, -, h⟩ | ⟨-, hnone, h⟩
    · rw [step, h]
      exact hle
    · rw [step, h]
      exact hle
    · rw [step, h, emit_bytesOnDisk, bytesOnDisk]
      cases hcur : t.current row with
      | none =>
        -- a new row: the check bounded the new total
        have hsum := Keyed.sum_upsert_of_find_none MockRecord.recordId recordSize hcur
        have hfits := bytes_le_of_checkQuota hcap (hnone hcur)
        rw [hsum]
        exact hfits
      | some old =>
        -- an overwrite: the total moves by the difference of the two rows
        have hsum := Keyed.sum_upsert_of_find MockRecord.recordId recordSize hcur
        have hfits := hfit old hcur
        unfold bytesOnDisk at hfits
        simp only at hsum ⊢
        omega

/-- The byte quota along a run that follows `set_quota`: every state is within the cap as long as
each overwrite fits, and every insert of a new id that would exceed the cap is rejected. -/
theorem byteQuota_run (t : MockTenant F) (q : Quota) (cap : Nat) (hq : q.maxBytes = some cap)
    (hle : t.bytesOnDisk ≤ cap) (calls : List (Call F))
    (hfit : EachStep step (OverwriteFits cap) (t.setQuota q) calls) :
    EachState step (fun s => s.bytesOnDisk ≤ cap) (t.setQuota q) calls ∧
      EachStep step (QuotaAnswer cap) (t.setQuota q) calls := by
  have hstep : ∀ (s : MockTenant F) call,
      (s.quota.maxBytes = some cap ∧ s.bytesOnDisk ≤ cap) → OverwriteFits cap s call →
        (s.step call).quota.maxBytes = some cap ∧ (s.step call).bytesOnDisk ≤ cap :=
    fun s call hs hf => ⟨by rw [step_quota, hs.1], bytesOnDisk_step_le hs.1 hs.2 hf⟩
  have hstart : (t.setQuota q).quota.maxBytes = some cap ∧ (t.setQuota q).bytesOnDisk ≤ cap :=
    ⟨hq, hle⟩
  have hstates := eachState_of_step step hstep hstart hfit
  rw [eachState_iff] at hstates
  constructor
  · rw [eachState_iff]
    exact fun pre hpre => (hstates pre hpre).2
  · rw [eachStep_iff]
    exact fun pre call hpre =>
      quotaAnswer_of_maxBytes (hstates pre ((List.prefix_append _ _).trans hpre)).1 call

/-- A row of one component, with id `id` and the given payload. -/
def exampleRow (id : UInt64) (payload : Bytes) : MockRecord Nat := ⟨⟨id⟩, [0], true, [], payload⟩

/-- A tenant that holds one row of five bytes. -/
def exampleTenant : MockTenant Nat := ⟨.zero, 1, [exampleRow 1 [7]], .unlimited, []⟩

/-- With a cap of five bytes: an overwrite of the same size, a new row that is too large, a delete,
and the same row again. -/
theorem byteQuota_run_example :
    let calls := [.insert (exampleRow 1 [8]), .insert (exampleRow 2 [8]), .delete ⟨1⟩,
      .insert (exampleRow 2 [8])]
    EachState step (fun s => s.bytesOnDisk ≤ 5) (exampleTenant.setQuota ⟨some 5, none⟩) calls ∧
      EachStep step (QuotaAnswer 5) (exampleTenant.setQuota ⟨some 5, none⟩) calls := by
  refine byteQuota_run exampleTenant ⟨some 5, none⟩ 5 rfl (by decide) _
    ⟨?_, ?_, trivial, ?_, trivial⟩
  · intro old h
    have hold : exampleRow 1 [7] = old := Option.some.inj h
    subst hold
    decide
  · intro old h
    have hnone : none = some old := h
    cases hnone
  · intro old h
    have hnone : none = some old := h
    cases hnone

/-- An overwrite with a larger row is accepted and carries the tenant over its byte cap. -/
theorem byteQuota_overwrite_exceeds :
    ¬ ∀ (t : MockTenant Nat) (q : Quota) (cap : Nat), q.maxBytes = some cap →
      t.bytesOnDisk ≤ cap → ∀ calls : List (Call Nat),
        EachState step (fun s => s.bytesOnDisk ≤ cap) (t.setQuota q) calls := by
  intro h
  have hrun := h exampleTenant ⟨some 5, none⟩ 5 rfl (by decide) [.insert (exampleRow 1 [7, 7])]
  have hbytes : ¬ ((exampleTenant.setQuota ⟨some 5, none⟩).step
      (.insert (exampleRow 1 [7, 7]))).bytesOnDisk ≤ 5 := by decide
  exact hbytes hrun.2

end MockTenant

end SkegRigging
