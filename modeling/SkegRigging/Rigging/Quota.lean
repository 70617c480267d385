import Mathlib.Order.Bounds.Defs
import SkegRigging.Rigging.MockSearch

/-!
# Quota decisions of MockTenant

A growing insert is rejected exactly when a cap that is set is below the value it would reach, the
record count before the bytes. The error reports that value, which is the least cap of the dimension
that would not reject the insert (`quota_decisions`). Caps may be set below the current usage: the
tenant keeps its rows and cannot grow.
-/

set_option autoImplicit false

namespace SkegRigging

variable {F : Type}

/-- The quota with another cap of one dimension, under the name that the errors give it. -/
def Quota.withCap (q : Quota) (dimension : String) (cap : Nat) : Quota :=
  if dimension = "records" then { q with maxRecords := some cap }
  else if dimension = "bytes" then { q with maxBytes := some cap }
  else q

namespace MockTenant

/-- One more record is more than `max_records`. -/
def RecordsExceeded (t : MockTenant F) : Prop :=
  ∃ cap, t.quota.maxRecords = some cap ∧ cap < t.recordCount + 1

/-- The bytes with the row are more than `max_bytes`. -/
def BytesExceeded (t : MockTenant F) (r : MockRecord F) : Prop :=
  ∃ cap, t.quota.maxBytes = some cap ∧ cap < t.bytesOnDisk + recordSize r

/-- The insert of the row is rejected in the dimension. -/
def Rejects (t : MockTenant F) (r : MockRecord F) (dimension : String) : Prop :=
  ∃ cap attempted, (t.insertRecord r).2 = .err (.exceeded dimension cap attempted)

/-- The answer to the insert of a row with a new id. -/
structure Decides (t : MockTenant F) (r : MockRecord F) : Prop where
  exceeded : (∃ dimension, Rejects t r dimension) ↔ RecordsExceeded t ∨ BytesExceeded t r
  accepted : ¬ (RecordsExceeded t ∨ BytesExceeded t r) → (t.insertRecord r).2 = .ok ()
  recordsFirst : RecordsExceeded t → Rejects t r "records"
  bytesNext : ¬ RecordsExceeded t → BytesExceeded t r → Rejects t r "bytes"
  attempted : ∀ dimension cap attempted,
    (t.insertRecord r).2 = .err (.exceeded dimension cap attempted) →
      IsLeast {c | ¬ Rejects (t.setQuota (t.quota.withCap dimension c)) r dimension} attempted
  atomic : ∀ e, (t.insertRecord r).2 = .err e → (t.insertRecord r).1 = t

section Check

variable {t : MockTenant F} {r : MockRecord F} {dimension : String} {cap attempted : Nat}

theorem exceeds_eq_some {bound : Option Nat} {e : QuotaError} :
    exceeds dimension bound attempted = some e ↔
      ∃ cap, bound = some cap ∧ cap < attempted ∧ e = .exceeded dimension cap attempted := by
  cases bound with
  | none => simp [exceeds]
  | some cap =>
    rw [exceeds]
    split
    · rename_i hlt
      constructor
      · intro h
        exact ⟨cap, rfl, hlt, (Option.some.inj h).symm⟩
      · rintro ⟨c, hc, -, rfl⟩
        rw [Option.some.inj hc]
    · rename_i hge
      constructor
      · intro h
        simp at h
      · rintro ⟨c, hc, hlt, -⟩
        rw [Option.some.inj hc] at hge
        exact absurd hlt hge

theorem exceeds_eq_none {bound : Option Nat} :
    exceeds dimension bound attempted = none ↔ ¬ ∃ cap, bound = some cap ∧ cap < attempted := by
  rw [← not_iff_not, not_not, ← Ne, Option.ne_none_iff_exists']
  constructor
  · rintro ⟨e, he⟩
    obtain ⟨c, hc, hlt, -⟩ := exceeds_eq_some.1 he
    exact ⟨c, hc, hlt⟩
  · rintro ⟨c, hc, hlt⟩
    exact ⟨_, exceeds_eq_some.2 ⟨c, hc, hlt, rfl⟩⟩

/-- How the quota check of a growing insert ends. -/
inductive CheckEnds (t : MockTenant F) (r : MockRecord F) : Option QuotaError → Prop
  | records {cap : Nat} (hcap : t.quota.maxRecords = some cap) (hlt : cap < t.recordCount + 1) :
      CheckEnds t r (some (.exceeded "records" cap (t.recordCount + 1)))
  | bytes {cap : Nat} (hrecords : ¬ RecordsExceeded t) (hcap : t.quota.maxBytes = some cap)
      (hlt : cap < t.bytesOnDisk + recordSize r) :
      CheckEnds t r (some (.exceeded "bytes" cap (t.bytesOnDisk + recordSize r)))
  | passed (hrecords : ¬ RecordsExceeded t) (hbytes : ¬ BytesExceeded t r) : CheckEnds t r none

theorem checkQuota_ends (t : MockTenant F) (r : MockRecord F) : CheckEnds t r (t.checkQuota r) := by
  rw [checkQuota]
  cases hrec : exceeds "records" t.quota.maxRecords (t.records.length + 1) with
  | some e =>
    obtain ⟨cap, hcap, hlt, rfl⟩ := exceeds_eq_some.1 hrec
    exact CheckEnds.records hcap hlt
  | none =>
    have hrecords : ¬ RecordsExceeded t := exceeds_eq_none.1 hrec
    cases hbytes : exceeds "bytes" t.quota.maxBytes (t.bytesOnDisk + recordSize r) with
    | some e =>
      obtain ⟨cap, hcap, hlt, rfl⟩ := exceeds_eq_some.1 hbytes
      exact CheckEnds.bytes hrecords hcap hlt
    | none => exact CheckEnds.passed hrecords (exceeds_eq_none.1 hbytes)

/-- An insert of a new id answers as its quota check does. -/
theorem insertRecord_new (hdim : asU32 r.embedding.length = t.dim) (hnew : t.current r = none) :
    (t.insertRecord r).2 =
      match t.checkQuota r with
      | some e => .err e
      | none => .ok () := by
  rcases t.insertRecord_cases r with ⟨hne, -⟩ | ⟨-, -, e, he, h⟩ | ⟨-, hnone, h⟩
  · exact absurd hdim hne
  · rw [h, he]
  · rw [h, hnone hnew]

theorem rejects_records_iff (hdim : asU32 r.embedding.length = t.dim) (hnew : t.current r = none) :
    Rejects t r "records" ↔ RecordsExceeded t := by
  rw [Rejects, insertRecord_new hdim hnew]
  have hends := checkQuota_ends t r
  generalize t.checkQuota r = o at hends ⊢
  cases hends with
  | records hcap hlt => exact iff_of_true ⟨_, _, rfl⟩ ⟨_, hcap, hlt⟩
  | bytes hrecords hcap hlt => exact iff_of_false (by simp) hrecords
  | passed hrecords hbytes => exact iff_of_false (by simp) hrecords

theorem rejects_bytes_iff (hdim : asU32 r.embedding.length = t.dim) (hnew : t.current r = none) :
    Rejects t r "bytes" ↔ ¬ RecordsExceeded t ∧ BytesExceeded t r := by
  rw [Rejects, insertRecord_new hdim hnew]
  have hends := checkQuota_ends t r
  generalize t.checkQuota r = o at hends ⊢
  cases hends with
  | records hcap hlt => exact iff_of_false (by simp) fun h => h.1 ⟨_, hcap, hlt⟩
  | bytes hrecords hcap hlt => exact iff_of_true ⟨_, _, rfl⟩ ⟨hrecords, _, hcap, hlt⟩
  | passed hrecords hbytes => exact iff_of_false (by simp) fun h => hbytes h.2

/-- An error of the insert of a new id, with what it says. -/
theorem insertRecord_err (hdim : asU32 r.embedding.length = t.dim) (hnew : t.current r = none)
    (h : (t.insertRecord r).2 = .err (.exceeded dimension cap attempted)) :
    (dimension = "records" ∧ attempted = t.recordCount + 1) ∨
      (dimension = "bytes" ∧ attempted = t.bytesOnDisk + recordSize r ∧ ¬ RecordsExceeded t) := by
  rw [insertRecord_new hdim hnew] at h
  have hends := checkQuota_ends t r
  generalize t.checkQuota r = o at hends h
  cases hends with
  | records hcap hlt =>
    simp only [Outcome.err.injEq, QuotaError.exceeded.injEq] at h
    exact Or.inl ⟨h.1.symm, h.2.2.symm⟩
  | bytes hrecords hcap hlt =>
    simp only [Outcome.err.injEq, QuotaError.exceeded.injEq] at h
    exact Or.inr ⟨h.1.symm, h.2.2.symm, hrecords⟩
  | passed hrecords hbytes => simp at h

/-- What rejects exactly the caps below `attempted` has it as its least cap that passes. -/
theorem isLeast_of_rejects {P : Nat → Prop} (h : ∀ c, P c ↔ c < attempted) :
    IsLeast {c | ¬ P c} attempted := by
  refine ⟨fun hself => Nat.lt_irrefl _ ((h attempted).1 hself), ?_⟩
  intro c hc
  by_contra hlt
  exact hc ((h c).2 (Nat.lt_of_not_le hlt))

/-- A cap in place of the one of the named dimension admits the insert from `attempted` on. -/
theorem attempted_isLeast (hdim : asU32 r.embedding.length = t.dim) (hnew : t.current r = none)
    (h : (t.insertRecord r).2 = .err (.exceeded dimension cap attempted)) :
    IsLeast {c | ¬ Rejects (t.setQuota (t.quota.withCap dimension c)) r dimension} attempted := by
  rcases insertRecord_err hdim hnew h with ⟨rfl, rfl⟩ | ⟨rfl, rfl, hrecords⟩
  · apply isLeast_of_rejects
    intro c
    have hiff : Rejects (t.setQuota (t.quota.withCap "records" c)) r "records" ↔
        RecordsExceeded (t.setQuota (t.quota.withCap "records" c)) :=
      rejects_records_iff hdim hnew
    rw [hiff]
    exact ⟨fun ⟨_, hc, hlt⟩ => Option.some.inj hc ▸ hlt, fun hlt => ⟨c, rfl, hlt⟩⟩
  · apply isLeast_of_rejects
    intro c
    have hiff : Rejects (t.setQuota (t.quota.withCap "bytes" c)) r "bytes" ↔
        ¬ RecordsExceeded (t.setQuota (t.quota.withCap "bytes" c)) ∧
          BytesExceeded (t.setQuota (t.quota.withCap "bytes" c)) r :=
      rejects_bytes_iff hdim hnew
    rw [hiff]
    -- the cap of the records is the one it was, and does not reject
    exact ⟨fun ⟨_, _, hc, hlt⟩ => Option.some.inj hc ▸ hlt, fun hlt => ⟨hrecords, c, rfl, hlt⟩⟩

theorem insertRecord_atomic {e : QuotaError} (h : (t.insertRecord r).2 = .err e) :
    (t.insertRecord r).1 = t := by
  rcases t.insertRecord_cases r with ⟨-, m, hcase⟩ | ⟨-, -, e', -, hcase⟩ | ⟨-, -, hcase⟩
  · rw [hcase]
  · rw [hcase]
  · rw [hcase] at h
    simp at h

theorem decides (hdim : asU32 r.embedding.length = t.dim) (hnew : t.current r = none) :
    Decides t r := by
  have hrecords := rejects_records_iff hdim hnew
  have hbytes := rejects_bytes_iff hdim hnew
  refine ⟨⟨?_, ?_⟩, ?_, hrecords.2, fun hno hb => hbytes.2 ⟨hno, hb⟩,
    fun _ _ _ h => attempted_isLeast hdim hnew h, fun _ h => insertRecord_atomic h⟩
  · rintro ⟨dimension, cap, attempted, h⟩
    rcases insertRecord_err hdim hnew h with ⟨rfl, -⟩ | ⟨rfl, -⟩
    · exact Or.inl (hrecords.1 ⟨cap, attempted, h⟩)
    · exact Or.inr (hbytes.1 ⟨cap, attempted, h⟩).2
  · rintro (hrec | hb)
    · exact ⟨_, hrecords.2 hrec⟩
    · by_cases hrec : RecordsExceeded t
      · exact ⟨_, hrecords.2 hrec⟩
      · exact ⟨_, hbytes.2 ⟨hrec, hb⟩⟩
  · intro hfree
    rw [not_or] at hfree
    rw [insertRecord_new hdim hnew]
    have hends := checkQuota_ends t r
    generalize t.checkQuota r = o at hends ⊢
    cases hends with
    | records hcap hlt => exact absurd ⟨_, hcap, hlt⟩ hfree.1
    | bytes _ hcap hlt => exact absurd ⟨_, hcap, hlt⟩ hfree.2
    | passed _ _ => rfl

end Check

/-! ## Growth -/

/-- An insert that adds a record passed the check of the record count. -/
theorem insertRecord_grows {t : MockTenant F} {row : MockRecord F} {cap : Nat}
    (hgrow : t.recordCount < (t.insertRecord row).1.recordCount)
    (hcap : t.quota.maxRecords = some cap) : (t.insertRecord row).1.recordCount ≤ cap := by
  rcases t.insertRecord_cases row with ⟨-, m, h⟩ | ⟨-, -, e, -, h⟩ | ⟨-, hnone, h⟩
  · rw [h] at hgrow
    exact absurd hgrow (Nat.lt_irrefl _)
  · rw [h] at hgrow
    exact absurd hgrow (Nat.lt_irrefl _)
  · have hcount : (t.insertRecord row).1.recordCount =
        if (t.current row).isSome then t.recordCount else t.recordCount + 1 := by
      rw [h]
      exact Keyed.length_upsert MockRecord.recordId row t.records
    rw [hcount] at hgrow ⊢
    cases hcur : t.current row with
    | some old =>
      rw [hcur] at hgrow
      exact absurd hgrow (Nat.lt_irrefl _)
    | none =>
      have hends := checkQuota_ends t row
      rw [hnone hcur] at hends
      cases hends with
      | passed hrecords _ =>
        by_contra hle
        exact hrecords ⟨cap, hcap, Nat.lt_of_not_le hle⟩

end MockTenant

namespace Bus

open MockTenant

/-- A step that adds a record stays within the cap that is in force. -/
def GrowsWithin (b : Bus F) (op : Op F) : Prop :=
  b.tenant.recordCount < (step b op).tenant.recordCount →
    ∀ cap, b.tenant.quota.maxRecords = some cap → (step b op).tenant.recordCount ≤ cap

theorem growsWithin (b : Bus F) (op : Op F) : GrowsWithin b op := by
  intro hgrow cap hcap
  cases op with
  | insert row => exact insertRecord_grows hgrow hcap
  | delete id =>
    have hle : (b.tenant.delete id).1.recordCount ≤ b.tenant.recordCount := by
      rw [recordCount, delete_records]
      exact Keyed.length_remove_le MockRecord.recordId id _
    exact absurd hgrow (Nat.not_lt.2 hle)
  | setQuota quota => exact absurd hgrow (Nat.lt_irrefl _)
  | subscribe filter => exact absurd hgrow (Nat.lt_irrefl _)
  | drop stream => exact absurd hgrow (Nat.lt_irrefl _)

/-- For every run of calls on a new tenant, quota changes included: the insert of a row of the right
dimension with a new id is decided by the caps as `Decides` says, and no step lets the record count
grow above the cap that is in force. -/
theorem quota_decisions (tenantId : TenantId) (dim : UInt32) (ops : List (Op F)) :
    (∀ row : MockRecord F, asU32 row.embedding.length = dim →
      row.recordId ∉ (Runs.run step (init tenantId dim) ops).tenant.records.map
        MockRecord.recordId →
      Decides (Runs.run step (init tenantId dim) ops).tenant row) ∧
    Runs.EachStep step GrowsWithin (init tenantId dim) ops := by
  refine ⟨?_, ?_⟩
  · intro row hdim hnew
    have hrun := (run_sound tenantId dim ops).2
    exact decides (hdim.trans hrun.symm) ((Keyed.find_eq_none_iff MockRecord.recordId).2 hnew)
  · rw [Runs.eachStep_iff]
    exact fun pre op _ => growsWithin _ op

/-- Three notes, and then a cap of two records: a fourth note is rejected, and a cap of four would
let it in. -/
theorem quota_decisions_example :
    let s := Runs.run step (init .zero 1) [.insert (exampleRow 1 []), .insert (exampleRow 2 []),
      .insert (exampleRow 3 []), .setQuota ⟨none, some 2⟩]
    (s.tenant.insertRecord (exampleRow 4 [])).2 = .err (.exceeded "records" 2 4) ∧
      IsLeast {c | ¬ Rejects (s.tenant.setQuota (s.tenant.quota.withCap "records" c))
        (exampleRow 4 []) "records"} 4 := by
  intro s
  have hret : (s.tenant.insertRecord (exampleRow 4 [])).2 = .err (.exceeded "records" 2 4) := by
    decide
  have hdecides := (quota_decisions .zero 1 [.insert (exampleRow 1 []), .insert (exampleRow 2 []),
    .insert (exampleRow 3 []), .setQuota ⟨none, some 2⟩]).1 (exampleRow 4 []) (by decide)
    (by decide)
  exact ⟨hret, hdecides.attempted _ _ _ hret⟩

end Bus

end SkegRigging
