import SkegRigging.Adapter.TenantSpec

/-!
# What a filtered search returns

The loop of `query_filtered` as a list expression: the accepted candidates in the order of the
engine, cut off after `top_k` of them, or after one when `top_k` is zero.
-/

set_option autoImplicit false

namespace SkegRigging

open DiskVamanaIndex

namespace Tenant

variable {F S : Type} {E : DiskVamanaIndex F S}

/-- The hit for a raw candidate: none for an id without sidecar entry or one the filter rejects. -/
def acceptedHit (t : Tenant E) (filter : Filter) (p : UInt64 × S) : Option (Hit F S) :=
  (t.inner.sidecar.get ⟨p.1⟩).bind fun e =>
    if filter (metaOf p.1 e) then some (t.hitOf p.1 p.2 e) else none

theorem acceptedHit_eq_some {t : Tenant E} {filter : Filter} {p : UInt64 × S} {hit : Hit F S} :
    t.acceptedHit filter p = some hit ↔
      ∃ e, t.inner.sidecar.get ⟨p.1⟩ = some e ∧ filter (metaOf p.1 e) = true ∧
        hit = t.hitOf p.1 p.2 e := by
  rw [acceptedHit, Option.bind_eq_some_iff]
  constructor
  · rintro ⟨e, he, hif⟩
    split at hif
    · rename_i hacc
      exact ⟨e, he, hacc, (Option.some.inj hif).symm⟩
    · simp at hif
  · rintro ⟨e, he, hacc, rfl⟩
    exact ⟨e, he, by rw [if_pos hacc]⟩

/-- The id has an entry and the filter accepts it. -/
def accepts (t : Tenant E) (filter : Filter) (id : UInt64) : Bool :=
  (t.inner.sidecar.get ⟨id⟩).any fun e => filter (metaOf id e)

theorem acceptedHit_isSome (t : Tenant E) (filter : Filter) (p : UInt64 × S) :
    (t.acceptedHit filter p).isSome = t.accepts filter p.1 := by
  rw [acceptedHit, accepts]
  cases t.inner.sidecar.get ⟨p.1⟩ with
  | none => rfl
  | some e =>
    rw [Option.bind_some, Option.any_some]
    split
    · rename_i hacc
      rw [hacc]
      rfl
    · rename_i hrej
      rw [Bool.not_eq_true] at hrej
      rw [hrej]
      rfl

theorem acceptedHit_eq_none {t : Tenant E} {filter : Filter} {p : UInt64 × S} :
    t.acceptedHit filter p = none ↔ t.accepts filter p.1 = false := by
  rw [← acceptedHit_isSome, Option.isSome_eq_false_iff, Option.isNone_iff_eq_none]

/-- The id and the similarity of a hit are those of its candidate. -/
theorem candidate_of_acceptedHit {t : Tenant E} {filter : Filter} {p : UInt64 × S} {hit : Hit F S}
    (h : t.acceptedHit filter p = some hit) : (hit.recordId.val, hit.similarity) = p := by
  obtain ⟨e, -, -, rfl⟩ := acceptedHit_eq_some.1 h
  rfl

/-- The hits of the candidates, as ids with similarities, are the accepted candidates. -/
theorem map_acceptedHit (t : Tenant E) (filter : Filter) (raw : List (UInt64 × S)) :
    (raw.filterMap (t.acceptedHit filter)).map (fun hit => (hit.recordId.val, hit.similarity)) =
      raw.filter fun p => t.accepts filter p.1 := by
  induction raw with
  | nil => rfl
  | cons p raw ih =>
    have hsome := acceptedHit_isSome t filter p
    cases hhit : t.acceptedHit filter p with
    | none =>
      rw [hhit] at hsome
      rw [List.filterMap_cons_none hhit, List.filter_cons_of_neg (by simp [← hsome]), ih]
    | some hit =>
      rw [hhit] at hsome
      rw [List.filterMap_cons_some hhit, List.map_cons, List.filter_cons_of_pos (by simp [← hsome]),
        ih, candidate_of_acceptedHit hhit]

/-- One turn of the loop. -/
theorem collectHits_cons (t : Tenant E) (topK : Nat) (filter : Filter) (p : UInt64 × S)
    (raw : List (UInt64 × S)) (out : List (Hit F S)) :
    collectHits t topK filter (p :: raw) out =
      match t.acceptedHit filter p with
      | none => collectHits t topK filter raw out
      | some hit =>
        if out.length + 1 ≥ topK then out ++ [hit]
        else collectHits t topK filter raw (out ++ [hit]) := by
  obtain ⟨id, sim⟩ := p
  rw [collectHits]
  cases hget : t.inner.sidecar.get ⟨id⟩ with
  | none => simp [acceptedHit, hget]
  | some e =>
    cases hacc : filter (metaOf id e) with
    | false => simp [acceptedHit, hget, hacc]
    | true => simp [acceptedHit, hget, hacc]

theorem collectHits_eq (t : Tenant E) (topK : Nat) (filter : Filter) (raw : List (UInt64 × S))
    (out : List (Hit F S)) :
    collectHits t topK filter raw out =
      out ++ (raw.filterMap (t.acceptedHit filter)).take (max (topK - out.length) 1) := by
  induction raw generalizing out with
  | nil => simp [collectHits]
  | cons p raw ih =>
    -- the bound counts the hits still missing, at least one: the loop pushes before it compares
    rw [collectHits_cons]
    cases hhit : t.acceptedHit filter p with
    | none =>
      rw [List.filterMap_cons_none hhit]
      exact ih out
    | some hit =>
      rw [List.filterMap_cons_some hhit]
      dsimp only
      split
      · -- the push that reaches `topK`: one more hit, and the loop stops
        have hone : max (topK - out.length) 1 = 1 := by omega
        rw [hone, List.take_succ_cons, List.take_zero]
      · have hmore : max (topK - out.length) 1 = max (topK - (out.length + 1)) 1 + 1 := by omega
        rw [ih, hmore, List.take_succ_cons, List.length_append, List.length_singleton,
          List.append_assoc, List.singleton_append]

/-- A query of the right dimension whose search succeeds. -/
theorem queryFiltered_eq {t : Tenant E} {embedding : List F} {topK : UInt32} {filter : Filter}
    {raw : List (UInt64 × S)} (hdim : asU32 embedding.length = t.embeddingDim)
    (hraw : E.search t.inner.index embedding (oversample topK) = .ok raw) :
    t.queryFiltered embedding topK filter =
      .ok ((raw.filterMap (t.acceptedHit filter)).take (max topK.toNat 1)) := by
  rw [queryFiltered, if_neg (not_not.2 hdim), hraw]
  simp only [collectHits_eq, List.nil_append, List.length_nil, Nat.sub_zero]

/-- Every hit of a query is an accepted candidate of the search. -/
theorem mem_queryFiltered {t : Tenant E} {embedding : List F} {topK : UInt32} {filter : Filter}
    {hits : List (Hit F S)} (h : t.queryFiltered embedding topK filter = .ok hits)
    {hit : Hit F S} (hmem : hit ∈ hits) :
    ∃ e, t.inner.sidecar.get hit.recordId = some e ∧
      filter (metaOf hit.recordId.val e) = true ∧
        hit = t.hitOf hit.recordId.val hit.similarity e := by
  unfold queryFiltered at h
  split at h
  · simp at h
  · cases hraw : E.search t.inner.index embedding (oversample topK) with
    | error e =>
      rw [hraw] at h
      simp at h
    | ok raw =>
      rw [hraw] at h
      simp only [Except.ok.injEq, collectHits_eq, List.nil_append] at h
      rw [← h] at hmem
      -- the cut-off only drops hits, so a hit is the image of some candidate
      obtain ⟨p, -, hp⟩ := List.mem_filterMap.1 (List.mem_of_mem_take hmem)
      obtain ⟨e, he, hacc, rfl⟩ := acceptedHit_eq_some.1 hp
      exact ⟨e, he, hacc, rfl⟩

end Tenant

end SkegRigging
