import SkegRigging.Adapter.Search
import SkegRigging.Reference.Engine

/-!
# Which candidates a filtered search selects

`query_filtered` pushes an accepted candidate before it compares with `top_k`. For a `top_k` of at
least one it selects the first accepted candidates; for zero it returns one hit whenever there is an
accepted candidate, so the bound holds exactly when there is none (`selectsFirst_iff`).

A candidate that is skipped leaves no trace in the result. Two tenants whose candidates agree, up to
those that both skip, answer alike (`queryFiltered_isolated`), so what a tenant keeps in records
that a filter rejects does not reach the hits of that filter.
-/

set_option autoImplicit false

namespace SkegRigging

open DiskVamanaIndex

namespace Tenant

variable {F S : Type} {E : DiskVamanaIndex F S}

/-- What `get` makes of the vector of an id: an error reads as an absent vector. -/
def storedVector (t : Tenant E) (id : UInt64) : Option (List F) :=
  match E.get t.inner.index id with
  | .ok v => v
  | .error _ => none

/-! ## The first accepted candidates -/

/-- `hits` are the first `topK` candidates of `raw` that have a sidecar entry which the filter
accepts, in their order and with the payload of that entry. -/
structure SelectsFirst (t : Tenant E) (filter : Filter) (topK : Nat) (raw : List (UInt64 × S))
    (hits : List (Hit F S)) : Prop where
  selected : hits.map (fun hit => (hit.recordId.val, hit.similarity)) =
    (raw.filter fun p => t.accepts filter p.1).take topK
  bounded : hits.length ≤ topK
  payload : ∀ hit ∈ hits, ∃ e, t.inner.sidecar.get hit.recordId = some e ∧ hit.payload = e.payload

/-- The accepted candidates, cut off at `n`, are the first `n`. -/
theorem selectsFirst_take (t : Tenant E) (filter : Filter) (n : Nat) (raw : List (UInt64 × S)) :
    SelectsFirst t filter n raw ((raw.filterMap (t.acceptedHit filter)).take n) := by
  refine ⟨?_, List.length_take_le n _, ?_⟩
  · rw [List.map_take, map_acceptedHit]
  · intro hit hmem
    obtain ⟨p, -, hp⟩ := List.mem_filterMap.1 (List.mem_of_mem_take hmem)
    obtain ⟨e, he, -, rfl⟩ := acceptedHit_eq_some.1 hp
    exact ⟨e, he, rfl⟩

theorem filterMap_acceptedHit_eq_nil {t : Tenant E} {filter : Filter} {raw : List (UInt64 × S)} :
    raw.filterMap (t.acceptedHit filter) = [] ↔ ∀ p ∈ raw, t.accepts filter p.1 = false := by
  rw [List.filterMap_eq_nil_iff]
  exact forall₂_congr fun p _ => acceptedHit_eq_none

/-- For every tenant, every query of the right dimension, every filter, every `top_k` and every
candidate list of the engine: the hits are the first `top_k` accepted candidates exactly when
`top_k` is not zero or no candidate is accepted. -/
theorem selectsFirst_iff (t : Tenant E) (embedding : List F) (topK : UInt32) (filter : Filter)
    (raw : List (UInt64 × S)) (hdim : asU32 embedding.length = t.embeddingDim)
    (hraw : E.search t.inner.index embedding (oversample topK) = .ok raw) :
    (∃ hits, t.queryFiltered embedding topK filter = .ok hits ∧
        SelectsFirst t filter topK.toNat raw hits) ↔
      (topK ≠ 0 ∨ ∀ p ∈ raw, t.accepts filter p.1 = false) := by
  rw [queryFiltered_eq hdim hraw]
  constructor
  · rintro ⟨hits, hret, hsel⟩
    by_contra hnot
    simp only [not_or, not_not, ← filterMap_acceptedHit_eq_nil] at hnot
    obtain ⟨rfl, hsome⟩ := hnot
    -- the loop compares after its first push
    have hlen := hsel.bounded
    rw [← Except.ok.inj hret, List.length_take] at hlen
    have hpos := List.length_pos_of_ne_nil hsome
    have hzero : (0 : UInt32).toNat = 0 := rfl
    omega
  · intro hok
    refine ⟨_, rfl, ?_⟩
    rcases hok with hne | hnone
    · have hpos : 0 < topK.toNat := by
        rw [Nat.pos_iff_ne_zero]
        intro hzero
        exact hne (UInt32.toNat_inj.1 hzero)
      rw [max_eq_left hpos]
      exact selectsFirst_take t filter topK.toNat raw
    · rw [filterMap_acceptedHit_eq_nil.2 hnone, List.take_nil]
      have hnil := selectsFirst_take t filter topK.toNat raw
      rwa [filterMap_acceptedHit_eq_nil.2 hnone, List.take_nil] at hnil

section Keeping

open Reference

/-- A tenant with the shareable record 1 and a private record 2. -/
def keeping (vector : List Int) (note : Bytes) : Tenant engine :=
  Tenant.handle home (((Log.empty 1).insert 1 [5]).insert 2 vector)
    ⟨.zero, 1, [⟨1, true, ["note"], [104, 105]⟩, ⟨2, false, [], note⟩]⟩ .zero 1

/-- What a peer may see. -/
def peer : Filter := fun m => m.shareable

theorem selectsFirst_iff_example : ∃ hits, (keeping [4] [33]).queryFiltered [4] 1 peer = .ok hits ∧
    SelectsFirst (keeping [4] [33]) peer 1 [(2, 0), (1, -1)] hits :=
  (selectsFirst_iff (keeping [4] [33]) [4] 1 peer [(2, 0), (1, -1)] (by decide) rfl).2
    (Or.inl (by decide))

/-- A query for no hits returns one. -/
theorem selectsFirst_zero :
    (keeping [4] [33]).queryFiltered [5] 0 peer = .ok [⟨⟨1⟩, 0, [104, 105], some [5]⟩] ∧
    engine.search (keeping [4] [33]).inner.index [5] (oversample 0) = .ok [(1, 0), (2, -1)] ∧
    ¬ ∃ hits, (keeping [4] [33]).queryFiltered [5] 0 peer = .ok hits ∧
      SelectsFirst (keeping [4] [33]) peer 0 [(1, 0), (2, -1)] hits := by
  have hret : (keeping [4] [33]).queryFiltered [5] 0 peer =
      .ok [⟨⟨1⟩, 0, [104, 105], some [5]⟩] := rfl
  refine ⟨hret, rfl, ?_⟩
  rintro ⟨hits, hhits, hsel⟩
  have hlen := hsel.bounded
  rw [← Except.ok.inj (hret.symm.trans hhits)] at hlen
  simp at hlen

end Keeping

/-! ## What rejected records reveal -/

/-- A query with `filter` sees the same of the id in both states: nothing in both, or the same entry
and the same vector. -/
def Alike (t₁ t₂ : Tenant E) (filter : Filter) (id : UInt64) : Prop :=
  (t₁.accepts filter id = false ∧ t₂.accepts filter id = false) ∨
    (t₁.inner.sidecar.get ⟨id⟩ = t₂.inner.sidecar.get ⟨id⟩ ∧
      t₁.storedVector id = t₂.storedVector id)

instance [DecidableEq F] (t₁ t₂ : Tenant E) (filter : Filter) (id : UInt64) :
    Decidable (Alike t₁ t₂ filter id) :=
  inferInstanceAs (Decidable (_ ∨ _))

/-- Candidates that are alike give the same hit, or none in both states. -/
theorem Alike.acceptedHit {t₁ t₂ : Tenant E} {filter : Filter} {p : UInt64 × S}
    (h : Alike t₁ t₂ filter p.1) : t₁.acceptedHit filter p = t₂.acceptedHit filter p := by
  rcases h with ⟨hrej₁, hrej₂⟩ | ⟨hentry, hvector⟩
  · rw [acceptedHit_eq_none.2 hrej₁, acceptedHit_eq_none.2 hrej₂]
  · have hhit : ∀ e, t₁.hitOf p.1 p.2 e = t₂.hitOf p.1 p.2 e := by
      intro e
      show Hit.mk _ _ _ (t₁.storedVector p.1) = Hit.mk _ _ _ (t₂.storedVector p.1)
      rw [hvector]
    rw [Tenant.acceptedHit, Tenant.acceptedHit, hentry]
    simp only [hhit]

/-- Tenants of one dimension whose candidates are alike give the same result. -/
theorem queryFiltered_congr {t₁ t₂ : Tenant E} {embedding : List F} {topK : UInt32}
    {filter : Filter} (hdim : t₁.embeddingDim = t₂.embeddingDim)
    (hsearch : E.search t₁.inner.index embedding (oversample topK) =
      E.search t₂.inner.index embedding (oversample topK))
    (h : ∀ raw, E.search t₁.inner.index embedding (oversample topK) = .ok raw →
      ∀ p ∈ raw, Alike t₁ t₂ filter p.1) :
    t₁.queryFiltered embedding topK filter = t₂.queryFiltered embedding topK filter := by
  by_cases hlen : asU32 embedding.length = t₁.embeddingDim
  · cases hraw : E.search t₁.inner.index embedding (oversample topK) with
    | error e =>
      rw [queryFiltered, queryFiltered, if_neg (not_not.2 hlen), if_neg (not_not.2 (hdim ▸ hlen)),
        ← hsearch, hraw]
    | ok raw =>
      rw [queryFiltered_eq hlen hraw, queryFiltered_eq (hdim ▸ hlen) (hsearch ▸ hraw),
        List.filterMap_congr fun p hp => (h raw hraw p hp).acceptedHit]
  · rw [queryFiltered, queryFiltered, if_pos hlen, if_pos (hdim ▸ hlen), hdim]

/-- The entry of an id, unless it is private. -/
def sharedEntry (t : Tenant E) (id : UInt64) : Option RecordEntry :=
  (t.inner.sidecar.get ⟨id⟩).filter fun e => e.shareable

/-- Both tenants share the same: the shareable entries and their vectors are equal. -/
structure SharesAlike (t₁ t₂ : Tenant E) : Prop where
  entries : ∀ id, t₁.sharedEntry id = t₂.sharedEntry id
  vectors : ∀ id, (t₁.sharedEntry id).isSome = true → t₁.storedVector id = t₂.storedVector id

/-- What an accepting filter sees is shared. -/
theorem accepts_shared {t : Tenant E} {filter : Filter} {id : UInt64}
    (hfilter : ∀ m, filter m = true → m.shareable = true) (h : t.accepts filter id = true) :
    ∃ e, t.inner.sidecar.get ⟨id⟩ = some e ∧ t.sharedEntry id = some e := by
  obtain ⟨e, he, hacc⟩ := (Option.any_eq_true ..).1 h
  have hshare : e.shareable = true := hfilter _ hacc
  exact ⟨e, he, by rw [sharedEntry, he, Option.filter_some, if_pos hshare]⟩

/-- What both states share is in both sidecars. -/
theorem get_of_sharedEntry {t : Tenant E} {id : UInt64} {e : RecordEntry}
    (h : t.sharedEntry id = some e) : t.inner.sidecar.get ⟨id⟩ = some e :=
  (Option.filter_eq_some_iff.1 h).1

theorem SharesAlike.alike {t₁ t₂ : Tenant E} {filter : Filter} (h : SharesAlike t₁ t₂)
    (hfilter : ∀ m, filter m = true → m.shareable = true) (id : UInt64) :
    Alike t₁ t₂ filter id := by
  cases hacc₁ : t₁.accepts filter id with
  | true =>
    obtain ⟨e, he, hshared⟩ := accepts_shared hfilter hacc₁
    have he' := get_of_sharedEntry ((h.entries id).symm.trans hshared)
    exact Or.inr ⟨he.trans he'.symm, h.vectors id (by rw [hshared]; rfl)⟩
  | false =>
    cases hacc₂ : t₂.accepts filter id with
    | false => exact Or.inl ⟨hacc₁, hacc₂⟩
    | true =>
      obtain ⟨e, he, hshared⟩ := accepts_shared hfilter hacc₂
      have hshared' := (h.entries id).trans hshared
      exact Or.inr ⟨(get_of_sharedEntry hshared').trans he.symm,
        h.vectors id (by rw [hshared']; rfl)⟩

/-- For every two tenants of one dimension and every query, filter and `top_k` for which the engine
searches alike: if every candidate is skipped in both states or has the same entry and vector in
both, the results are equal; the metadata of every hit was accepted; and for a filter that accepts
shareable records only, tenants that share the same answer alike whatever else they hold. -/
theorem queryFiltered_isolated (t₁ t₂ : Tenant E) (embedding : List F) (topK : UInt32)
    (filter : Filter) (hdim : t₁.embeddingDim = t₂.embeddingDim)
    (hsearch : E.search t₁.inner.index embedding (oversample topK) =
      E.search t₂.inner.index embedding (oversample topK)) :
    ((∀ raw, E.search t₁.inner.index embedding (oversample topK) = .ok raw →
        ∀ p ∈ raw, Alike t₁ t₂ filter p.1) →
      t₁.queryFiltered embedding topK filter = t₂.queryFiltered embedding topK filter) ∧
    (∀ t ∈ [t₁, t₂], ∀ hits, t.queryFiltered embedding topK filter = .ok hits → ∀ hit ∈ hits,
      ∃ e, t.inner.sidecar.get hit.recordId = some e ∧
        filter (metaOf hit.recordId.val e) = true ∧ hit.payload = e.payload) ∧
    ((∀ m, filter m = true → m.shareable = true) → SharesAlike t₁ t₂ →
      t₁.queryFiltered embedding topK filter = t₂.queryFiltered embedding topK filter) := by
  refine ⟨queryFiltered_congr hdim hsearch, ?_, ?_⟩
  · intro t _ hits hret hit hmem
    obtain ⟨e, he, hacc, hhit⟩ := mem_queryFiltered hret hmem
    exact ⟨e, he, hacc, by rw [hhit]; rfl⟩
  · intro hfilter hshare
    exact queryFiltered_congr hdim hsearch fun _ _ p _ => hshare.alike hfilter p.1

/-- Two tenants that differ in a private record: the engine returns it to both with the same
similarity, and a peer gets the same answer from both. -/
theorem queryFiltered_isolated_example :
    (keeping [4] [33]).queryFiltered [5] 2 peer = (keeping [6] [63]).queryFiltered [5] 2 peer ∧
      (keeping [4] [33]).storedVector 2 ≠ (keeping [6] [63]).storedVector 2 := by
  have hsearch : Reference.engine.search (keeping [4] [33]).inner.index [5] (oversample 2) =
      Reference.engine.search (keeping [6] [63]).inner.index [5] (oversample 2) := rfl
  obtain ⟨halike, -, -⟩ :=
    queryFiltered_isolated (keeping [4] [33]) (keeping [6] [63]) [5] 2 peer rfl hsearch
  refine ⟨halike ?_, by decide⟩
  intro raw hraw p hp
  have hcandidates : raw = [(1, 0), (2, -1)] := (Except.ok.inj hraw).symm
  rw [hcandidates] at hp
  revert p
  decide

end Tenant

end SkegRigging
