import SkegRigging.Rigging.MockSearch

/-!
# The lengths of stored vectors

`insert` and `query_filtered` compare the length of a slice with the dimension after narrowing it
to a `u32`. A length that differs from the dimension by a multiple of `2 ^ 32` passes (`Wraps`):
such a vector is stored, and with such a query `cosine` reads past the end of every stored vector.

`eachState_searchSafe_iff` says that nothing else can go wrong.
-/

set_option autoImplicit false

namespace SkegRigging

open Runs

variable {F S : Type} [LinearOrder S]

/-- The length is another number than the dimension, and the comparison does not see it. -/
def Wraps (dim : UInt32) (len : Nat) : Prop := asU32 len = dim ∧ len ≠ dim.toNat

theorem not_wraps_iff {dim : UInt32} {len : Nat} :
    ¬Wraps dim len ↔ (asU32 len = dim → len = dim.toNat) := by
  rw [Wraps, not_and, not_not]

namespace F32

variable {o : F32 F S}

omit [LinearOrder S] in
theorem cosineLoop_panics {a b : List F} (h : b.length < a.length) (len : Nat) (dot na nb : F) :
    o.cosineLoop len a b dot na nb = .error ("index out of bounds: the len is " ++ toString len ++
      " but the index is " ++ toString len) := by
  induction a generalizing b dot na nb with
  | nil => simp at h
  | cons x a ih =>
    cases b with
    | nil => rfl
    | cons y b => exact ih (Nat.lt_of_succ_lt_succ h) _ _ _

/-- With fewer components on the right, `b[i]` is out of bounds at the end of `b`. -/
theorem cosine_panics {a b : List F} (h : b.length < a.length) :
    o.cosine a b = .error ("index out of bounds: the len is " ++ toString b.length ++
      " but the index is " ++ toString b.length) := by
  rw [cosine, cosineLoop_panics h]

/-- All accesses of `cosine` are in bounds exactly when `b` is at least as long as `a`. -/
theorem cosine_ok_iff {a b : List F} : (∃ s, o.cosine a b = .ok s) ↔ a.length ≤ b.length := by
  constructor
  · rintro ⟨s, hs⟩
    by_contra hlt
    rw [cosine_panics (Nat.lt_of_not_le hlt)] at hs
    cases hs
  · exact cosine_ok

end F32

namespace MockTenant

/-- Every stored embedding has exactly as many elements as the dimension says. -/
def Exact (t : MockTenant F) : Prop := ∀ r ∈ t.records, r.embedding.length = t.dim.toNat

/-- What a search with this query can rely on: the stored embeddings have the dimension, a query of
another length is an error, and no access of `cosine` is out of bounds. -/
structure SearchSafe (o : F32 F S) (t : MockTenant F) (query : List F) : Prop where
  stored : t.Exact
  mismatch : query.length ≠ t.dim.toNat → ∀ topK filter, t.queryFiltered o query topK filter =
    .err (.embeddingDimMismatch t.dim (asU32 query.length))
  /-- `cosine` is called on the accepted records, once the comparison has passed. -/
  inBounds : asU32 query.length = t.dim → ∀ filter, ∀ r ∈ t.accepted filter,
    ∃ s, o.cosine query r.embedding = .ok s
  quiet : ∀ topK filter message, t.queryFiltered o query topK filter ≠ .panic message

section Search

variable {o : F32 F S} {t : MockTenant F} {query : List F} {filter : Filter}

theorem queryFiltered_mismatch (topK : UInt32) (h : asU32 query.length ≠ t.dim) :
    t.queryFiltered o query topK filter =
      .err (.embeddingDimMismatch t.dim (asU32 query.length)) := by
  rw [queryFiltered, if_pos h]

/-- A query that passes the comparison is not answered with an error. -/
theorem queryFiltered_ne_err (topK : UInt32) (h : asU32 query.length = t.dim) (e : QueryError) :
    t.queryFiltered o query topK filter ≠ .err e := by
  rw [queryFiltered, if_neg (not_not.2 h)]
  cases collectHits o query filter t.records <;> simp

/-- What passes the comparison and is scored, is answered. -/
theorem queryFiltered_of_cosine (topK : UInt32) (h : asU32 query.length = t.dim)
    (hcosine : ∀ r ∈ t.accepted filter, ∃ s, o.cosine query r.embedding = .ok s) :
    ∃ hits, t.queryFiltered o query topK filter = .ok hits := by
  obtain ⟨hits, hcollect, -⟩ := collectHits_ok hcosine
  rw [queryFiltered, if_neg (not_not.2 h), collectHits_filter]
  rw [accepted] at hcollect
  rw [hcollect]
  exact ⟨_, rfl⟩

/-- A search is safe exactly when the stored embeddings have the dimension and the length of the
query does not wrap to it. -/
theorem searchSafe_iff : SearchSafe o t query ↔ t.Exact ∧ ¬Wraps t.dim query.length := by
  constructor
  · intro h
    refine ⟨h.stored, ?_⟩
    rintro ⟨hpass, hne⟩
    exact queryFiltered_ne_err 0 hpass _ (h.mismatch hne 0 fun _ => true)
  · rintro ⟨hexact, hwraps⟩
    rw [not_wraps_iff] at hwraps
    have hcosine : asU32 query.length = t.dim → ∀ filter, ∀ r ∈ t.accepted filter,
        ∃ s, o.cosine query r.embedding = .ok s := by
      intro hpass filter r hr
      apply F32.cosine_ok_iff.2
      rw [hwraps hpass, hexact r (List.mem_filter.1 hr).1]
    refine ⟨hexact, fun hne topK filter => ?_, hcosine, fun topK filter message => ?_⟩
    · exact queryFiltered_mismatch topK (mt hwraps hne)
    · by_cases hpass : asU32 query.length = t.dim
      · obtain ⟨hits, hhits⟩ := queryFiltered_of_cosine topK hpass (hcosine hpass filter)
        rw [hhits]
        simp
      · rw [queryFiltered_mismatch topK hpass]
        simp

end Search

end MockTenant

namespace Bus

/-- An insert that the quota lets through is given no vector whose length wraps to the dimension. -/
def StoresExact (b : Bus F) : Op F → Prop
  | .insert row => (b.tenant.current row = none → b.tenant.checkQuota row = none) →
      ¬Wraps b.tenant.dim row.embedding.length
  | .delete _ => True
  | .setQuota _ => True
  | .subscribe _ => True
  | .drop _ => True

/-- One call keeps the stored embeddings exact if and only if it stores no vector that wraps. -/
theorem exact_step_iff {b : Bus F} (hb : b.tenant.Exact) (op : Op F) :
    (step b op).tenant.Exact ↔ StoresExact b op := by
  cases op with
  | insert row =>
    rcases b.tenant.insertRecord_cases row with ⟨hne, m, h⟩ | ⟨-, hnew, e, he, h⟩ | ⟨hdim, hq, h⟩
    · apply iff_of_true
      · rw [step, call, h]
        exact hb
      · exact fun _ hwraps => hne hwraps.1
    · apply iff_of_true
      · rw [step, call, h]
        exact hb
      · intro hquota
        rw [hquota hnew] at he
        cases he
    · have hlen : StoresExact b (.insert row) ↔ row.embedding.length = b.tenant.dim.toNat := by
        rw [StoresExact, not_wraps_iff]
        exact ⟨fun hexact => hexact hq hdim, fun heq _ _ => heq⟩
      rw [hlen, step, call, h]
      constructor
      · intro hexact
        exact hexact row (Keyed.mem_upsert_self MockRecord.recordId row b.tenant.records)
      · intro heq r hr
        rcases Keyed.mem_upsert MockRecord.recordId hr with rfl | hold
        · exact heq
        · exact hb r hold
  | delete id =>
    apply iff_of_true _ trivial
    intro r hr
    rw [step, call, MockTenant.delete_records] at hr
    rw [step, call, MockTenant.delete_dim]
    exact hb r ((Keyed.mem_remove MockRecord.recordId).1 hr).1
  | setQuota quota => exact iff_of_true hb trivial
  | subscribe filter => exact iff_of_true hb trivial
  | drop stream => exact iff_of_true hb trivial

/-- In every state of a run the search with this query is safe, exactly when the length of the query
does not wrap to the dimension and no insert of the run stores a vector whose length does. -/
theorem eachState_searchSafe_iff (o : F32 F S) (tenantId : TenantId) (dim : UInt32)
    (ops : List (Op F)) (query : List F) :
    EachState step (fun b => MockTenant.SearchSafe o b.tenant query) (init tenantId dim) ops ↔
      ¬Wraps dim query.length ∧ EachStep step StoresExact (init tenantId dim) ops := by
  have hsteps : EachState step (fun b => b.tenant.Exact) (init tenantId dim : Bus F) ops ↔
      EachStep step StoresExact (init tenantId dim) ops := by
    have hsound : ∀ (b : Bus F) op, Sound dim b → True → Sound dim (step b op) :=
      fun b op hb _ => step_sound hb op
    have hstep : ∀ (b : Bus F) op, Sound dim b → b.tenant.Exact → True →
        ((step b op).tenant.Exact ↔ StoresExact b op) := fun b op _ hb _ => exact_step_iff hb op
    have hinit : Sound dim (init tenantId dim : Bus F) := run_sound tenantId dim []
    apply eachState_iff_eachStep step hsound hstep hinit
    · exact fun r hr => by simp [init, MockTenant.new] at hr
    · exact eachStep_of_forall step (fun _ _ => trivial) _ _
  rw [← hsteps, eachState_iff, eachState_iff]
  have hdim : ∀ pre, (run step (init tenantId dim : Bus F) pre).tenant.dim = dim :=
    fun pre => (run_sound tenantId dim pre).2
  constructor
  · intro h
    refine ⟨?_, fun pre hpre => (h pre hpre).stored⟩
    have hfirst := (MockTenant.searchSafe_iff.1 (h [] List.nil_prefix)).2
    rwa [hdim] at hfirst
  · rintro ⟨hwraps, hexact⟩ pre hpre
    rw [MockTenant.searchSafe_iff, hdim]
    exact ⟨hexact pre hpre, hwraps⟩

/-- In a tenant of dimension one with one note: a query of `2 ^ 32 + 1` components passes the
comparison, and the search panics at the second one. A vector of that length is stored as well. -/
theorem not_searchSafe_wrapped :
    let held := run step (init .zero 1) [.insert ⟨⟨1⟩, [(1 : Int)], true, [], [1]⟩]
    let long := List.replicate (2 ^ 32 + 1) (1 : Int)
    held.tenant.queryFiltered MockTenant.wholeFloats long 1 (fun _ => true) =
        .panic "index out of bounds: the len is 1 but the index is 1" ∧
      ¬MockTenant.SearchSafe MockTenant.wholeFloats held.tenant long ∧
      ¬(step held (.insert ⟨⟨2⟩, long, true, [], [2]⟩)).tenant.Exact := by
  intro held long
  have hlen : long.length = 2 ^ 32 + 1 := List.length_replicate
  have hrecords : held.tenant.records = [⟨⟨1⟩, [(1 : Int)], true, [], [1]⟩] := rfl
  have hpass : asU32 long.length = 1 := by
    rw [hlen]
    decide
  have hpanic : held.tenant.queryFiltered MockTenant.wholeFloats long 1 (fun _ => true) =
      .panic "index out of bounds: the len is 1 but the index is 1" := by
    have hshort : [(1 : Int)].length < long.length := by
      rw [hlen]
      decide
    have hcosine := F32.cosine_panics (o := MockTenant.wholeFloats) hshort
    have hdim : asU32 long.length = held.tenant.dim := hpass
    have hcollect : MockTenant.collectHits MockTenant.wholeFloats long (fun _ => true)
        held.tenant.records = .error "index out of bounds: the len is 1 but the index is 1" := by
      rw [hrecords, MockTenant.collectHits, if_pos rfl, hcosine]
      rfl
    rw [MockTenant.queryFiltered, if_neg (not_not.2 hdim), hcollect]
  refine ⟨hpanic, fun h => h.quiet 1 _ _ hpanic, ?_⟩
  have hexact : held.tenant.Exact := by
    intro r hr
    rw [hrecords, List.mem_singleton] at hr
    rw [hr]
    rfl
  rw [exact_step_iff hexact]
  intro h
  apply h (fun _ => rfl)
  refine ⟨hpass, ?_⟩
  rw [hlen]
  decide

end Bus

end SkegRigging
