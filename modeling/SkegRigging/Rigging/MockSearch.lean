import Mathlib.Order.WithBot
import SkegRigging.Library.TopK
import SkegRigging.Rigging.Broadcast

/-!
# The filtered search of MockTenant

`query_filtered` of `mock.rs`: score every accepted record, sort by descending similarity, truncate.
A float is an element of a type `F` with the operations that `cosine` uses; `value` is the number it
stands for, and a NaN stands for none.

When no similarity is a NaN the result is the exact top-k of the accepted records, ties in record
order (`query_exact`), and it depends on the accepted records only.
-/

set_option autoImplicit false

namespace SkegRigging

/-- What `cosine` and the sort do with `f32`. -/
structure F32 (F S : Type) where
  zero : F
  add : F → F → F
  mul : F → F → F
  div : F → F → F
  sqrt : F → F
  value : F → Option S

namespace F32

variable {F S : Type} [LinearOrder S] (o : F32 F S)

/-- `x == y`: a NaN is equal to nothing. -/
def eq (x y : F) : Bool :=
  match o.value x, o.value y with
  | some x, some y => decide (x = y)
  | _, _ => false

/-- `f32::partial_cmp`. -/
def partialCmp (x y : F) : Option Ordering :=
  match o.value x, o.value y with
  | some x, some y => some (compare x y)
  | _, _ => none

/-- The loop of `cosine`, over the components of `a`; `len` is the length of the whole `b`. -/
def cosineLoop (len : Nat) : List F → List F → F → F → F → Except String (F × F × F)
  | [], _, dot, na, nb => .ok (dot, na, nb)
  | _ :: _, [], _, _, _ =>
    .error ("index out of bounds: the len is " ++ toString len ++ " but the index is " ++
      toString len)
  | x :: a, y :: b, dot, na, nb =>
    cosineLoop len a b (o.add dot (o.mul x y)) (o.add na (o.mul x x)) (o.add nb (o.mul y y))

/-- `cosine`; the error is a panic. -/
def cosine (a b : List F) : Except String F :=
  match o.cosineLoop b.length a b o.zero o.zero o.zero with
  | .error message => .error message
  | .ok (dot, na, nb) =>
    if o.eq na o.zero || o.eq nb o.zero then .ok o.zero
    else .ok (o.div dot (o.mul (o.sqrt na) (o.sqrt nb)))

/-- The number of a float, below all others for a NaN. -/
def rank (x : F) : WithBot S := o.value x

variable {o}

omit [LinearOrder S] in
theorem cosineLoop_ok {a b : List F} (h : a.length ≤ b.length) (len : Nat) (dot na nb : F) :
    ∃ sums, o.cosineLoop len a b dot na nb = .ok sums := by
  induction a generalizing b dot na nb with
  | nil => exact ⟨_, rfl⟩
  | cons x a ih =>
    cases b with
    | nil => simp at h
    | cons y b => exact ih (Nat.le_of_succ_le_succ h) _ _ _

/-- With at least as many components on the right, no index is out of bounds. -/
theorem cosine_ok {a b : List F} (h : a.length ≤ b.length) : ∃ s, o.cosine a b = .ok s := by
  obtain ⟨⟨dot, na, nb⟩, hsums⟩ := cosineLoop_ok (o := o) h b.length o.zero o.zero o.zero
  unfold cosine
  rw [hsums]
  dsimp only
  split
  · exact ⟨_, rfl⟩
  · exact ⟨_, rfl⟩

end F32

variable {F S : Type} [LinearOrder S]

namespace MockTenant

variable (o : F32 F S)

/-! ## The search -/

/-- The metadata view of a record. -/
def metaOf (r : MockRecord F) : RecordMeta := ⟨r.recordId, r.shareable, r.tags⟩

def hitOf (r : MockRecord F) (similarity : F) : Hit F F :=
  { recordId := r.recordId, similarity, payload := r.payload, embedding := some r.embedding }

/-- The hits of the records that the filter accepts, in record order. The error is a panic. -/
def collectHits (embedding : List F) (filter : Filter) :
    List (MockRecord F) → Except String (List (Hit F F))
  | [] => .ok []
  | r :: rs =>
    if filter (metaOf r) then
      match o.cosine embedding r.embedding with
      | .error message => .error message
      | .ok similarity =>
        match collectHits embedding filter rs with
        | .error message => .error message
        | .ok hits => .ok (hitOf r similarity :: hits)
    else collectHits embedding filter rs

/-- `a` need not come after `b`: `b.similarity.partial_cmp(&a.similarity).unwrap_or(Equal)` is not
`Greater`. -/
def notAfter (a b : Hit F F) : Bool :=
  match (o.partialCmp b.similarity a.similarity).getD .eq with
  | .gt => false
  | .lt | .eq => true

/-- `QueryFiltered::query_filtered`. -/
def queryFiltered (t : MockTenant F) (embedding : List F) (topK : UInt32) (filter : Filter) :
    Outcome (List (Hit F F)) QueryError :=
  if asU32 embedding.length ≠ t.dim then
    .err (.embeddingDimMismatch t.dim (asU32 embedding.length))
  else
    match collectHits o embedding filter t.records with
    | .error message => .panic message
    -- `sort_by` is stable
    | .ok hits => .ok ((hits.mergeSort (notAfter o)).take topK.toNat)

/-- The records that the filter accepts. -/
def accepted (t : MockTenant F) (filter : Filter) : List (MockRecord F) :=
  t.records.filter fun r => filter (metaOf r)

/-! ## The exact top-k -/

/-- `hits` are `k` most similar accepted records, or all of them, each with its current data, best
first and equally similar ones in record order. -/
structure ExactTopK (t : MockTenant F) (embedding : List F) (filter : Filter) (k : Nat)
    (hits : List (Hit F F)) : Prop where
  length : hits.length = min k (t.accepted filter).length
  nodup : (hits.map Hit.recordId).Nodup
  sound : ∀ hit ∈ hits, ∃ r ∈ t.accepted filter,
    o.cosine embedding r.embedding = .ok hit.similarity ∧ hit = hitOf r hit.similarity
  sorted : hits.Pairwise fun a b => o.rank b.similarity ≤ o.rank a.similarity
  ties : hits.Pairwise fun a b => o.rank a.similarity = o.rank b.similarity →
    [a.recordId, b.recordId].Sublist (t.records.map MockRecord.recordId)
  best : ∀ r ∈ t.accepted filter, r.recordId ∉ hits.map Hit.recordId →
    ∀ s, o.cosine embedding r.embedding = .ok s → ∀ hit ∈ hits, o.rank s ≤ o.rank hit.similarity

/-- No similarity of the query to one of the records is a NaN. -/
def NoNaN (embedding : List F) (records : List (MockRecord F)) : Prop :=
  ∀ r ∈ records, ∀ s, o.cosine embedding r.embedding = .ok s → (o.value s).isSome = true

section Search

variable {o} {embedding : List F} {filter : Filter} {records : List (MockRecord F)}

/-- The loop over all records is the loop over the accepted ones. -/
theorem collectHits_filter (embedding : List F) (filter : Filter) (records : List (MockRecord F)) :
    collectHits o embedding filter records =
      collectHits o embedding (fun _ => true) (records.filter fun r => filter (metaOf r)) := by
  induction records with
  | nil => rfl
  | cons r rs ih =>
    cases hacc : filter (metaOf r) with
    | false =>
      rw [List.filter_cons_of_neg (by simp [hacc]), collectHits, if_neg (by simp [hacc]), ih]
    | true =>
      have hkeep : (r :: rs).filter (fun r => filter (metaOf r)) =
          r :: rs.filter fun r => filter (metaOf r) := List.filter_cons_of_pos hacc
      rw [hkeep, collectHits, collectHits, if_pos hacc, if_pos rfl, ih]

/-- The hit of a record, with its similarity. -/
def Scores (o : F32 F S) (embedding : List F) (r : MockRecord F) (hit : Hit F F) : Prop :=
  o.cosine embedding r.embedding = .ok hit.similarity ∧ hit = hitOf r hit.similarity

/-- One hit for each record, with its similarity. -/
theorem collectHits_ok (h : ∀ r ∈ records, ∃ s, o.cosine embedding r.embedding = .ok s) :
    ∃ hits, collectHits o embedding (fun _ => true) records = .ok hits ∧
      List.Forall₂ (Scores o embedding) records hits := by
  induction records with
  | nil => exact ⟨[], rfl, List.Forall₂.nil⟩
  | cons r rs ih =>
    obtain ⟨s, hs⟩ := h r List.mem_cons_self
    obtain ⟨hits, hrest, hall⟩ := ih fun r' hr' => h r' (List.mem_cons_of_mem _ hr')
    refine ⟨hitOf r s :: hits, ?_, List.Forall₂.cons ⟨hs, rfl⟩ hall⟩
    rw [collectHits, if_pos rfl, hs]
    dsimp only
    rw [hrest]

/-- The order of the sort on numbers, total also where a similarity is a NaN. -/
def byRank (o : F32 F S) (a b : Hit F F) : Bool :=
  decide (o.rank b.similarity ≤ o.rank a.similarity)

theorem byRank_trans (a b c : Hit F F) (hab : byRank o a b = true)
    (hbc : byRank o b c = true) : byRank o a c = true :=
  decide_eq_true ((of_decide_eq_true hbc).trans (of_decide_eq_true hab))

theorem byRank_total (a b : Hit F F) : (byRank o a b || byRank o b a) = true := by
  rcases le_total (o.rank a.similarity) (o.rank b.similarity) with h | h
  · exact Bool.or_eq_true_iff.2 (Or.inr (decide_eq_true h))
  · exact Bool.or_eq_true_iff.2 (Or.inl (decide_eq_true h))

/-- Between numbers the comparison of the sort is that of the numbers. -/
theorem notAfter_eq_byRank {a b : Hit F F} (ha : (o.value a.similarity).isSome = true)
    (hb : (o.value b.similarity).isSome = true) : notAfter o a b = byRank o a b := by
  obtain ⟨x, hx⟩ := Option.isSome_iff_exists.1 ha
  obtain ⟨y, hy⟩ := Option.isSome_iff_exists.1 hb
  have hcmp : o.partialCmp b.similarity a.similarity = some (compare y x) := by
    rw [F32.partialCmp, hx, hy]
  have hle : o.rank b.similarity ≤ o.rank a.similarity ↔ y ≤ x := by
    rw [F32.rank, F32.rank, hx, hy]
    exact WithBot.coe_le_coe
  rw [notAfter, hcmp, Option.getD_some, byRank, decide_eq_decide.2 hle]
  split
  · rename_i hgt
    exact (decide_eq_false (not_le.2 (compare_gt_iff_gt.1 hgt))).symm
  · rename_i hlt
    exact (decide_eq_true (compare_lt_iff_lt.1 hlt).le).symm
  · rename_i heq
    exact (decide_eq_true (compare_eq_iff_eq.1 heq).le).symm

theorem mergeSort_notAfter {hits : List (Hit F F)}
    (h : ∀ hit ∈ hits, (o.value hit.similarity).isSome = true) :
    hits.mergeSort (notAfter o) = hits.mergeSort (byRank o) := by
  have hmap : (hits.mergeSort (notAfter o)).map id = (hits.map id).mergeSort (byRank o) :=
    List.map_mergeSort fun a ha b hb => notAfter_eq_byRank (h a ha) (h b hb)
  rwa [List.map_id, List.map_id] at hmap

theorem map_recordId_of_scores {hits : List (Hit F F)}
    (h : List.Forall₂ (Scores o embedding) records hits) :
    hits.map Hit.recordId = records.map MockRecord.recordId := by
  induction h with
  | nil => rfl
  | cons hone _ ih =>
    rw [List.map_cons, List.map_cons, ih, hone.2]
    rfl

/-- What is related element by element to a list has a partner in it for each element. -/
theorem exists_partner {A B : Type} {R : A → B → Prop} {as : List A} {bs : List B}
    (h : List.Forall₂ R as bs) {b : B} (hmem : b ∈ bs) : ∃ a ∈ as, R a b := by
  induction h with
  | nil => simp at hmem
  | cons hone _ ih =>
    rcases List.mem_cons.1 hmem with rfl | hmem'
    · exact ⟨_, List.mem_cons_self, hone⟩
    · obtain ⟨a, ha, hrel⟩ := ih hmem'
      exact ⟨a, List.mem_cons_of_mem _ ha, hrel⟩

theorem exists_record_of_hit {hits : List (Hit F F)}
    (h : List.Forall₂ (Scores o embedding) records hits) {hit : Hit F F} (hmem : hit ∈ hits) :
    ∃ r ∈ records, Scores o embedding r hit :=
  exists_partner h hmem

theorem exists_hit_of_record {hits : List (Hit F F)}
    (h : List.Forall₂ (Scores o embedding) records hits) {r : MockRecord F} (hmem : r ∈ records) :
    ∃ hit ∈ hits, Scores o embedding r hit :=
  exists_partner h.flip hmem

/-- Sorted and cut off, the hits of the accepted records are the exact top-k. -/
theorem exactTopK_mergeSort {t : MockTenant F} {hits : List (Hit F F)}
    (hnd : (t.records.map MockRecord.recordId).Nodup)
    (hscores : List.Forall₂ (Scores o embedding) (t.accepted filter) hits) (k : Nat) :
    ExactTopK o t embedding filter k ((hits.mergeSort (byRank o)).take k) := by
  have hids : hits.map Hit.recordId = (t.accepted filter).map MockRecord.recordId :=
    map_recordId_of_scores hscores
  have hsub : (hits.map Hit.recordId).Sublist (t.records.map MockRecord.recordId) := by
    rw [hids]
    exact List.filter_sublist.map _
  have hnodup : (hits.map Hit.recordId).Nodup := hnd.sublist hsub
  have hfirst : TopK.IsFirst (byRank o) hits k ((hits.mergeSort (byRank o)).take k) :=
    TopK.isFirst_mergeSort byRank_trans byRank_total (List.Nodup.of_map _ hnodup) k
  refine ⟨?_, ?_, ?_, ?_, ?_, ?_⟩
  · have hlen := congrArg List.length hids
    rw [List.length_map, List.length_map] at hlen
    rw [hfirst.length, hlen]
  · rw [List.nodup_map_iff_inj_on hfirst.nodup]
    intro a ha b hb hab
    exact List.inj_on_of_nodup_map hnodup (hfirst.subset ha) (hfirst.subset hb) hab
  · intro hit hhit
    obtain ⟨r, hr, hscore⟩ := exists_record_of_hit hscores (hfirst.subset hhit)
    exact ⟨r, hr, hscore⟩
  · exact hfirst.sorted.imp fun h => of_decide_eq_true h
  · apply hfirst.ties.imp
    intro a b htie heq
    exact ((htie (decide_eq_true heq.le)).map Hit.recordId).trans hsub
  · intro r hr hout s hs hit hhit
    obtain ⟨left, hleft, hscore, hhitOf⟩ := exists_hit_of_record hscores hr
    have hid : left.recordId = r.recordId := by
      rw [hhitOf]
      rfl
    have hnot : left ∉ (hits.mergeSort (byRank o)).take k := by
      intro hmem
      exact hout (hid ▸ List.mem_map_of_mem hmem)
    have hbest := of_decide_eq_true (hfirst.best left hleft hnot hit hhit)
    rw [hs, Except.ok.injEq] at hscore
    rwa [hscore]

end Search

/-! ## Every reachable tenant -/

/-- The ids are distinct, and every embedding passed the comparison with the dimension. -/
structure WellFormed (t : MockTenant F) : Prop where
  nodup : (t.records.map MockRecord.recordId).Nodup
  dim : ∀ r ∈ t.records, asU32 r.embedding.length = t.dim

theorem insertRecord_dim (t : MockTenant F) (r : MockRecord F) :
    (t.insertRecord r).1.dim = t.dim := by
  rcases t.insertRecord_cases r with ⟨-, m, h⟩ | ⟨-, -, e, -, h⟩ | ⟨-, -, h⟩
  · rw [h]
  · rw [h]
  · rw [h]
    rfl

theorem delete_dim (t : MockTenant F) (id : RecordId) : (t.delete id).1.dim = t.dim := by
  simp only [delete]
  split <;> rfl

theorem insertRecord_wellFormed {t : MockTenant F} (ht : t.WellFormed) (r : MockRecord F) :
    (t.insertRecord r).1.WellFormed := by
  rcases t.insertRecord_cases r with ⟨-, m, h⟩ | ⟨-, -, e, -, h⟩ | ⟨hdim, -, h⟩
  · rw [h]
    exact ht
  · rw [h]
    exact ht
  · rw [h]
    refine ⟨Keyed.nodup_upsert MockRecord.recordId ht.nodup, ?_⟩
    intro x hx
    rcases Keyed.mem_upsert MockRecord.recordId hx with rfl | hold
    · exact hdim
    · exact ht.dim x hold

theorem delete_wellFormed {t : MockTenant F} (ht : t.WellFormed) (id : RecordId) :
    (t.delete id).1.WellFormed := by
  refine ⟨?_, ?_⟩
  · rw [delete_records]
    exact Keyed.nodup_remove MockRecord.recordId ht.nodup
  · intro r hr
    rw [delete_records] at hr
    rw [delete_dim]
    exact ht.dim r ((Keyed.mem_remove MockRecord.recordId).1 hr).1

end MockTenant

namespace Bus

/-- What every call keeps: the records are well formed, and the dimension is that of the start. -/
def Sound (dim : UInt32) (b : Bus F) : Prop := b.tenant.WellFormed ∧ b.tenant.dim = dim

theorem step_sound {dim : UInt32} {b : Bus F} (hb : Sound dim b) (op : Op F) :
    Sound dim (step b op) := by
  obtain ⟨hwf, hdim⟩ := hb
  cases op with
  | insert row =>
    exact ⟨MockTenant.insertRecord_wellFormed hwf row,
      (MockTenant.insertRecord_dim b.tenant row).trans hdim⟩
  | delete id =>
    exact ⟨MockTenant.delete_wellFormed hwf id, (MockTenant.delete_dim b.tenant id).trans hdim⟩
  | setQuota quota => exact ⟨⟨hwf.nodup, hwf.dim⟩, hdim⟩
  | subscribe filter => exact ⟨⟨hwf.nodup, hwf.dim⟩, hdim⟩
  | drop stream => exact ⟨⟨hwf.nodup, hwf.dim⟩, hdim⟩

theorem run_sound (tenantId : TenantId) (dim : UInt32) (ops : List (Op F)) :
    Sound dim (Runs.run step (init tenantId dim) ops) := by
  have hstep : ∀ (b : Bus F) op, Sound dim b → Sound dim (step b op) :=
    fun b op hb => step_sound hb op
  have hinit : Sound dim (init tenantId dim : Bus F) :=
    ⟨⟨List.nodup_nil, fun r hr => by simp [init, MockTenant.new] at hr⟩, rfl⟩
  exact Runs.run_invariant step hstep hinit ops

end Bus

namespace MockTenant

/-- A query with as many components as the dimension counts does not panic. -/
theorem queryFiltered_ok {o : F32 F S} {t : MockTenant F} {embedding : List F} {filter : Filter}
    (ht : t.WellFormed) (hdim : embedding.length = t.dim.toNat)
    (hnan : NoNaN o embedding (t.accepted filter)) (topK : UInt32) :
    ∃ hits, t.queryFiltered o embedding topK filter = .ok hits ∧
      ExactTopK o t embedding filter topK.toNat hits := by
  have hcosine : ∀ r ∈ t.accepted filter, ∃ s, o.cosine embedding r.embedding = .ok s := by
    intro r hr
    apply F32.cosine_ok
    rw [hdim, ← ht.dim r (List.mem_filter.1 hr).1, toNat_asU32]
    exact Nat.mod_le _ _
  obtain ⟨hits, hcollect, hscores⟩ := collectHits_ok hcosine
  have hvalues : ∀ hit ∈ hits, (o.value hit.similarity).isSome = true := by
    intro hit hhit
    obtain ⟨r, hr, hscore⟩ := exists_record_of_hit hscores hhit
    exact hnan r hr _ hscore.1
  have hmatch : asU32 embedding.length = t.dim := by
    rw [hdim, asU32]
    exact UInt32.ofNat_toNat
  refine ⟨(hits.mergeSort (byRank o)).take topK.toNat, ?_, exactTopK_mergeSort ht.nodup hscores _⟩
  rw [queryFiltered, if_neg (not_not.2 hmatch), collectHits_filter]
  unfold accepted at hcollect
  rw [hcollect, ← mergeSort_notAfter hvalues]

/-- The result depends on the dimension and the accepted records. -/
theorem queryFiltered_congr (o : F32 F S) {t t' : MockTenant F} (embedding : List F)
    (topK : UInt32) {filter : Filter} (hdim : t'.dim = t.dim)
    (hacc : t'.accepted filter = t.accepted filter) :
    t'.queryFiltered o embedding topK filter = t.queryFiltered o embedding topK filter := by
  unfold accepted at hacc
  rw [queryFiltered, queryFiltered, collectHits_filter embedding filter t'.records,
    collectHits_filter embedding filter t.records, hdim, hacc]

/-- For every run of calls on a new tenant, every query of its dimension, every filter and every
`top_k`, as long as no similarity is a NaN: the search returns the exact top-k of the accepted
records. And any two tenants of one dimension with the same accepted records answer alike. -/
theorem query_exact (o : F32 F S) (tenantId : TenantId) (dim : UInt32) (ops : List (Bus.Op F))
    (embedding : List F) (topK : UInt32) (filter : Filter) (hdim : embedding.length = dim.toNat)
    (hnan : NoNaN o embedding
      ((Runs.run Bus.step (Bus.init tenantId dim) ops).tenant.accepted filter)) :
    (∃ hits, (Runs.run Bus.step (Bus.init tenantId dim) ops).tenant.queryFiltered o embedding topK
        filter = .ok hits ∧
      ExactTopK o (Runs.run Bus.step (Bus.init tenantId dim) ops).tenant embedding filter
        topK.toNat hits) ∧
    ∀ t t' : MockTenant F, t'.dim = t.dim → t'.accepted filter = t.accepted filter →
      t'.queryFiltered o embedding topK filter = t.queryFiltered o embedding topK filter := by
  obtain ⟨hwf, hrun⟩ := Bus.run_sound tenantId dim ops
  refine ⟨queryFiltered_ok hwf (by rw [hrun, hdim]) hnan topK, ?_⟩
  exact fun t t' => queryFiltered_congr o embedding topK

/-- Integers as floats, exact on vectors of zeros and ones. -/
def wholeFloats : F32 Int Int :=
  { zero := 0, add := (· + ·), mul := (· * ·), div := (· / ·), sqrt := id, value := some }

/-- Two equally similar notes, a less similar one between them, and a private one. -/
def fourNotes : List (Bus.Op Int) :=
  [.insert ⟨⟨1⟩, [1], true, [], [1]⟩, .insert ⟨⟨2⟩, [-1], true, [], [2]⟩,
    .insert ⟨⟨3⟩, [1], false, [], [3]⟩, .insert ⟨⟨4⟩, [1], true, [], [4]⟩]

theorem query_exact_example :
    ∃ hits, (Runs.run Bus.step (Bus.init .zero 1) fourNotes).tenant.queryFiltered wholeFloats [1] 2
        (fun m => m.shareable) = .ok hits ∧
      ExactTopK wholeFloats (Runs.run Bus.step (Bus.init .zero 1) fourNotes).tenant [1]
        (fun m => m.shareable) 2 hits :=
  (query_exact wholeFloats .zero 1 fourNotes [1] 2 (fun m => m.shareable) rfl
    fun _ _ _ _ => rfl).1

end MockTenant

end SkegRigging
