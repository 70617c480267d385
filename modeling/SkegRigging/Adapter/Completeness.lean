import SkegRigging.Adapter.Search
import SkegRigging.Adapter.Session
import SkegRigging.Library.TopK
import SkegRigging.Reference.Engine
import SkegRigging.Reference.Json

/-!
# How complete a filtered search is

`query_filtered` asks the engine for `max (4 * top_k) 64` candidates and filters those. Rejected
records and vectors without sidecar entry use up candidates, so the answer holds as many of the
`top_k` hits as the candidates contain (`query_complete`). It never prefers a less similar record to
one that it leaves out.
-/

set_option autoImplicit false

namespace SkegRigging

open DiskVamanaIndex

variable {F S : Type} {E : DiskVamanaIndex F S}

namespace Tenant

/-- The live records that the filter accepts. -/
def liveAccepted (t : Tenant E) (filter : Filter) : List RecordEntry :=
  t.inner.sidecar.records.filter fun e => filter (metaOf e.recordId e)

theorem accepts_of_mem {t : Tenant E} {filter : Filter} (hnd : t.inner.sidecar.ids.Nodup)
    {e : RecordEntry} (he : e ∈ t.liveAccepted filter) : t.accepts filter e.recordId = true := by
  obtain ⟨hmem, hacc⟩ := List.mem_filter.1 he
  have hfind : t.inner.sidecar.get ⟨e.recordId⟩ = some e := Keyed.find_of_mem _ hnd hmem
  simp only [accepts, hfind, Option.any_some]
  exact hacc

theorem mem_liveAccepted_of_accepts {t : Tenant E} {filter : Filter} {id : UInt64}
    (h : t.accepts filter id = true) : id ∈ (t.liveAccepted filter).map RecordEntry.recordId := by
  rw [accepts, Option.any_eq_true] at h
  obtain ⟨e, hfind, hacc⟩ := h
  have hid : e.recordId = id := Keyed.key_of_find _ hfind
  refine List.mem_map.2 ⟨e, List.mem_filter.2 ⟨Keyed.mem_of_find _ hfind, ?_⟩, hid⟩
  rw [hid]
  exact hacc

/-- Accepted candidates are live accepted records, each once. -/
theorem length_accepted_le [LinearOrder S] {t : Tenant E} {filter : Filter}
    {scores : UInt64 → Option S} {n : Nat} {l : List (UInt64 × S)} (htop : TopK.IsTop scores n l) :
    (l.filter fun p => t.accepts filter p.1).length ≤ (t.liveAccepted filter).length := by
  -- ids without repetition inside the live ids: there are not more of them
  have hnd : ((l.filter fun p => t.accepts filter p.1).map Prod.fst).Nodup :=
    htop.nodup.sublist (List.filter_sublist.map _)
  have hsub : (l.filter fun p => t.accepts filter p.1).map Prod.fst ⊆
      (t.liveAccepted filter).map RecordEntry.recordId := by
    intro id hid
    obtain ⟨p, hp, rfl⟩ := List.mem_map.1 hid
    exact mem_liveAccepted_of_accepts (List.mem_filter.1 hp).2
  have hle := (List.subperm_of_subset hnd hsub).length_le
  simpa using hle

/-! ## The first accepted candidates -/

/-- The hits, as ids with similarities, are the first `k` accepted candidates of `l`. -/
def FirstAccepted (t : Tenant E) (filter : Filter) (k : Nat) (l : List (UInt64 × S))
    (hits : List (Hit F S)) : Prop :=
  hits.map (fun hit => (hit.recordId.val, hit.similarity)) =
    (l.filter fun p => t.accepts filter p.1).take k

theorem firstAccepted_take (t : Tenant E) (filter : Filter) (k : Nat) (l : List (UInt64 × S)) :
    FirstAccepted t filter k l ((l.filterMap (t.acceptedHit filter)).take k) := by
  rw [FirstAccepted, List.map_take, map_acceptedHit]

namespace FirstAccepted

variable {t : Tenant E} {filter : Filter} {k : Nat} {l : List (UInt64 × S)} {hits : List (Hit F S)}

theorem mem (h : FirstAccepted t filter k l hits) {hit : Hit F S} (hhit : hit ∈ hits) :
    (hit.recordId.val, hit.similarity) ∈ (l.filter fun p => t.accepts filter p.1).take k := by
  rw [← h]
  exact List.mem_map_of_mem hhit

theorem length_eq (h : FirstAccepted t filter k l hits) :
    hits.length = min k (l.filter fun p => t.accepts filter p.1).length := by
  rw [← List.length_take, ← h, List.length_map]

theorem ids (h : FirstAccepted t filter k l hits) :
    hits.map (fun hit => hit.recordId.val) =
      ((l.filter fun p => t.accepts filter p.1).take k).map Prod.fst := by
  rw [← h, List.map_map]
  rfl

variable [LinearOrder S] {scores : UInt64 → Option S} {n : Nat}

theorem nodup (h : FirstAccepted t filter k l hits) (htop : TopK.IsTop scores n l) :
    (hits.map Hit.recordId).Nodup := by
  have hnd : (hits.map fun hit => hit.recordId.val).Nodup := by
    rw [h.ids]
    exact htop.nodup.sublist (((List.take_sublist _ _).trans List.filter_sublist).map _)
  apply List.Nodup.of_map RecordId.val
  rw [List.map_map]
  exact hnd

theorem sorted (h : FirstAccepted t filter k l hits) (htop : TopK.IsTop scores n l) :
    hits.Pairwise fun a b => b.similarity ≤ a.similarity := by
  have hpw : ((l.filter fun p => t.accepts filter p.1).take k).Pairwise fun a b => b.2 ≤ a.2 :=
    htop.sorted.sublist ((List.take_sublist _ _).trans List.filter_sublist)
  rw [← h, List.pairwise_map] at hpw
  exact hpw

theorem sound (h : FirstAccepted t filter k l hits) (htop : TopK.IsTop scores n l) {hit : Hit F S}
    (hhit : hit ∈ hits) :
    t.accepts filter hit.recordId.val = true ∧
      scores hit.recordId.val = some hit.similarity := by
  obtain ⟨hin, haccept⟩ := List.mem_filter.1 (List.mem_of_mem_take (h.mem hhit))
  exact ⟨haccept, htop.sound _ hin⟩

/-- An accepted id that is left out scores no better than any hit. -/
theorem best (h : FirstAccepted t filter k l hits) (htop : TopK.IsTop scores n l) {id : UInt64}
    {s : S} (hscore : scores id = some s) (hacc : t.accepts filter id = true)
    (hout : ⟨id⟩ ∉ hits.map Hit.recordId) {hit : Hit F S} (hhit : hit ∈ hits) :
    s ≤ hit.similarity := by
  have hnot : id ∉ ((l.filter fun p => t.accepts filter p.1).take k).map Prod.fst := by
    rw [← h.ids]
    intro hin
    obtain ⟨hit', hhit', hid⟩ := List.mem_map.1 hin
    exact hout (List.mem_map.2 ⟨hit', hhit', congrArg RecordId.mk hid⟩)
  exact htop.le_of_not_mem_take (t.accepts filter) k hscore hacc hnot (h.mem hhit)

end FirstAccepted

end Tenant

namespace Session

variable [LinearOrder S]

/-- What the answer `hits` to a query is, when the engine answers `cands`. -/
structure Answers (M : E.Model) (sim : List F → List F → S) (t : Tenant E) (q : List F)
    (topK : UInt32) (filter : Filter) (cands : List (UInt64 × S)) (hits : List (Hit F S)) :
    Prop where
  candidates : TopK.IsTop (fun id => (M.vectors t.inner.index id).map (sim q))
    (max (topK.toNat * 4) 64) cands
  length : hits.length =
    min topK.toNat (cands.filter fun p => t.accepts filter p.1).length
  complete : hits.length = min topK.toNat (t.liveAccepted filter).length ↔
    min topK.toNat (t.liveAccepted filter).length ≤
      (cands.filter fun p => t.accepts filter p.1).length
  nodup : (hits.map Hit.recordId).Nodup
  sorted : hits.Pairwise fun a b => b.similarity ≤ a.similarity
  sound : ∀ hit ∈ hits, t.accepts filter hit.recordId.val = true ∧
    ∃ v, M.vectors t.inner.index hit.recordId.val = some v ∧ hit.similarity = sim q v
  best : ∀ e ∈ t.liveAccepted filter, ⟨e.recordId⟩ ∉ hits.map Hit.recordId →
    ∃ v, M.vectors t.inner.index e.recordId = some v ∧ ∀ hit ∈ hits, sim q v ≤ hit.similarity

/-- After any session, a query of the right dimension for at least one hit returns, best first, as
many accepted records as the candidates hold, up to `top_k`; it is complete exactly when the
candidates hold enough of them, and no live accepted record that it leaves out is more similar to
the query than one it returns. -/
theorem query_complete (M : E.Model) {sim : List F → List F → S} (hsearch : ExactSearch M sim)
    {J : SerdeJson} (hJ : J.Laws) (dir : PathBuf) (ops : List (Op E)) {t : Tenant E}
    (ht : (runs J dir ops).handle = some t) {q : List F} (hdim : asU32 q.length = t.embeddingDim)
    {topK : UInt32} (htop : 1 ≤ topK) (filter : Filter) :
    ∃ cands hits, E.search t.inner.index q (max (topK.toNat * 4) 64) = .ok cands ∧
      t.queryFiltered q topK filter = .ok hits ∧ Answers M sim t q topK filter cands hits := by
  have hs : Inv M J (runs J dir ops) := runs_inv hJ dir ops
  have hlisted := (hs.held t ht).listed
  obtain ⟨cands, hcands, hIsTop⟩ := hsearch t.inner.index q (Tenant.oversample topK)
  -- with `top_k ≥ 1` the push before the comparison makes no difference
  have hk : max topK.toNat 1 = topK.toNat := by
    have h1 : (1 : UInt32).toNat ≤ topK.toNat := UInt32.le_iff_toNat_le.1 htop
    have h2 : (1 : UInt32).toNat = 1 := rfl
    omega
  have hquery : t.queryFiltered q topK filter =
      .ok ((cands.filterMap (t.acceptedHit filter)).take (max topK.toNat 1)) :=
    Tenant.queryFiltered_eq hdim hcands
  rw [hk] at hquery
  have hfirst := Tenant.firstAccepted_take t filter topK.toNat cands
  refine ⟨cands, _, hcands, hquery, hIsTop, hfirst.length_eq, ?_, hfirst.nodup hIsTop,
    hfirst.sorted hIsTop, ?_, ?_⟩
  · rw [hfirst.length_eq]
    exact TopK.min_eq_min_iff (Tenant.length_accepted_le hIsTop)
  · intro hit hhit
    obtain ⟨haccept, hscore⟩ := hfirst.sound hIsTop hhit
    obtain ⟨v, hv, hsim⟩ := Option.map_eq_some_iff.1 hscore
    exact ⟨haccept, v, hv, hsim.symm⟩
  · intro e he hout
    -- an entry comes from an insert, so its vector is in the index and has a score
    obtain ⟨r, hr, hentry⟩ := hlisted.entry e (List.mem_filter.1 he).1
    have hstored : (M.vectors t.inner.index e.recordId).isSome := by
      rw [hs.vectors M J ht, ← hentry]
      exact History.latest_isSome hr
    obtain ⟨v, hv⟩ := Option.isSome_iff_exists.1 hstored
    refine ⟨v, hv, ?_⟩
    intro hit hhit
    have hscore : (M.vectors t.inner.index e.recordId).map (sim q) = some (sim q v) := by
      rw [hv]
      rfl
    have haccept := Tenant.accepts_of_mem hlisted.nodup he
    exact hfirst.best hIsTop hscore haccept hout hhit

section Crowding

open Reference

/-- A shareable record and a private one. -/
def pairOfNotes : List (Op engine) :=
  [.open quiet .zero 1, .insert false ⟨⟨1⟩, [0], false, [], [1]⟩,
    .insert false ⟨⟨2⟩, [9], true, [], [2]⟩]

theorem query_complete_example :
    ∃ t cands hits, (runs json home pairOfNotes).handle = some t ∧
      t.queryFiltered [0] 1 (fun record => record.shareable) = .ok hits ∧
      Answers model similarity t [0] 1 (fun record => record.shareable) cands hits := by
  have hdim : ((runs json home pairOfNotes).handle.map fun t => decide
      (asU32 ([0] : List Int).length = t.embeddingDim)) = some true := by
    decide +kernel
  obtain ⟨t, ht, hdim⟩ := Option.map_eq_some_iff.1 hdim
  obtain ⟨cands, hits, -, hquery, hanswers⟩ := query_complete model exactSearch json_laws home
    pairOfNotes ht (of_decide_eq_true hdim) (UInt32.le_refl 1) fun record => record.shareable
  exact ⟨t, cands, hits, ht, hquery, hanswers⟩

/-- Sixty-four private records next to the query, and a shareable one further away. -/
def crowd : List (Op engine) :=
  .open quiet .zero 1 ::
    (List.range 64).map (fun i => .insert false ⟨⟨UInt64.ofNat i⟩, [0], false, [], []⟩) ++
      [.insert false ⟨⟨100⟩, [9], true, [], []⟩]

/-- The private records take all sixty-four candidates, and the answer is empty although a shareable
record is live. -/
theorem query_complete_crowd :
    ¬ ∀ (ops : List (Op engine)) t, (runs json home ops).handle = some t →
      ∀ q topK filter, asU32 q.length = t.embeddingDim → 1 ≤ topK →
        ∃ hits, t.queryFiltered q topK filter = .ok hits ∧
          hits.length = min topK.toNat (t.liveAccepted filter).length := by
  intro h
  -- one evaluation of the whole run: the dimension, the answer and the live records
  have hrun : ((runs json home crowd).handle.map fun t =>
      (decide (asU32 ([0] : List Int).length = t.embeddingDim),
        t.queryFiltered [0] 1 (fun record => record.shareable),
        (t.liveAccepted fun record => record.shareable).length)) = some (true, .ok [], 1) := by
    decide +kernel
  obtain ⟨t, ht, hrun⟩ := Option.map_eq_some_iff.1 hrun
  simp only [Prod.mk.injEq] at hrun
  obtain ⟨hdim, hquery, hlive⟩ := hrun
  obtain ⟨hits, hhits, hlen⟩ :=
    h crowd t ht [0] 1 (fun record => record.shareable) (of_decide_eq_true hdim) (UInt32.le_refl 1)
  rw [hquery] at hhits
  rw [← Except.ok.inj hhits, hlive] at hlen
  simp at hlen

end Crowding

end Session

end SkegRigging
