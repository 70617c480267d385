import Mathlib.Data.List.Dedup
import SkegRigging.Adapter.Completeness
import SkegRigging.Adapter.Interchange
import SkegRigging.Rigging.MockSearch

/-!
# The two tenants search alike

`MockTenant::query_filtered` scores every record; `Tenant::query_filtered` filters what the engine
returns. Beside each other along one run of calls, both answers list best accepted records
(`exists_tenantRecords`, `exists_mockRecords`), so the answer of the tenant has the similarities of
the first hits of the mock, and is these hits where no two accepted records are equally similar
(`queryFiltered_alike`). It is the whole answer as long as the candidates can hold every vector that
was inserted.
-/

set_option autoImplicit false

namespace SkegRigging

open DiskVamanaIndex

/-- The hit with its similarity on another scale. -/
def Hit.rated {F X Y : Type} (value : X → Y) (hit : Hit F X) : Hit F Y :=
  { hit with similarity := value hit.similarity }

namespace Twins

variable {F S T : Type} {E : DiskVamanaIndex F S} {M : E.Model} {s : Twins E} {filter : Filter}

/-! ## The records under the hits -/

section Records

/-- Every mock record has its entry in the sidecar, under its id. -/
theorem Simulates.get (hs : Simulates M s) {r : MockRecord F} (hr : r ∈ s.mock.records) :
    s.tenant.inner.sidecar.get r.recordId = some (entryOf r) := by
  have hids : s.tenant.inner.sidecar.records.map RecordEntry.recordId =
      (s.mock.records.map MockRecord.recordId).map RecordId.val := by
    rw [← hs.records, List.map_map, List.map_map]
    rfl
  have hnd : (s.tenant.inner.sidecar.records.map RecordEntry.recordId).Nodup := by
    rw [hids]
    exact hs.nodup.map fun a b hab => RecordId.val_inj.1 hab
  have hmem : entryOf r ∈ s.tenant.inner.sidecar.records := by
    rw [← hs.records]
    exact List.mem_map_of_mem hr
  exact Keyed.find_of_mem RecordEntry.recordId hnd hmem

/-- Every entry of the sidecar is that of a mock record. -/
theorem Simulates.exists_record (hs : Simulates M s) {id : RecordId} {e : RecordEntry}
    (h : s.tenant.inner.sidecar.get id = some e) :
    ∃ r ∈ s.mock.records, r.recordId = id ∧ entryOf r = e := by
  have hmem := Keyed.mem_of_find RecordEntry.recordId h
  rw [← hs.records] at hmem
  obtain ⟨r, hr, rfl⟩ := List.mem_map.1 hmem
  exact ⟨r, hr, RecordId.val_inj.1 (Keyed.key_of_find RecordEntry.recordId h), rfl⟩

/-- The filter accepts a record of the mock exactly when it accepts its id in the tenant. -/
theorem Simulates.accepts (hs : Simulates M s) {r : MockRecord F} (hr : r ∈ s.mock.records) :
    s.tenant.accepts filter r.recordId.val = filter (MockTenant.metaOf r) := by
  have hget : s.tenant.inner.sidecar.get ⟨r.recordId.val⟩ = some (entryOf r) := hs.get hr
  rw [Tenant.accepts, hget]
  rfl

theorem Simulates.nodup_accepted (hs : Simulates M s) :
    ((s.mock.accepted filter).map MockRecord.recordId).Nodup :=
  hs.nodup.sublist (List.filter_sublist.map _)

/-- The accepted records of the two tenants are as many. -/
theorem Simulates.length_accepted (hs : Simulates M s) :
    (s.tenant.liveAccepted filter).length = (s.mock.accepted filter).length := by
  rw [Tenant.liveAccepted, ← hs.records, List.filter_map, List.length_map]
  rfl

/-- The hit of a record, as either tenant returns it. -/
def recordHit (value : List F → T) (r : MockRecord F) : Hit F T :=
  { recordId := r.recordId, similarity := value r.embedding, payload := r.payload,
    embedding := some r.embedding }

/-- A list inside the image of another one is the image of a list. -/
theorem exists_map_eq {A B : Type} {f : A → B} {xs : List A} {l : List B}
    (h : ∀ b ∈ l, ∃ a ∈ xs, f a = b) : ∃ as, as ⊆ xs ∧ as.map f = l := by
  induction l with
  | nil => exact ⟨[], List.nil_subset xs, rfl⟩
  | cons b l ih =>
    obtain ⟨a, ha, hab⟩ := h b List.mem_cons_self
    obtain ⟨as, has, hmap⟩ := ih fun b' hb' => h b' (List.mem_cons_of_mem _ hb')
    exact ⟨a :: as, List.cons_subset.2 ⟨ha, has⟩, by rw [List.map_cons, hab, hmap]⟩

variable [LinearOrder T]

/-- Hits that are those of accepted records, each once, best first, with no better record left out,
are the hits of best records. -/
theorem exists_isBest {records : List (MockRecord F)} {value : List F → T} {hits : List (Hit F T)}
    (hnd : (records.map MockRecord.recordId).Nodup)
    (hsound : ∀ hit ∈ hits, ∃ r ∈ records, recordHit value r = hit)
    (hnodup : (hits.map Hit.recordId).Nodup)
    (hsorted : hits.Pairwise fun a b => b.similarity ≤ a.similarity)
    (hbest : ∀ r ∈ records, r.recordId ∉ hits.map Hit.recordId → ∀ hit ∈ hits,
      value r.embedding ≤ hit.similarity) :
    ∃ rs, rs.map (recordHit value) = hits ∧
      TopK.IsBest (fun r : MockRecord F => value r.embedding) records rs := by
  obtain ⟨rs, hsub, rfl⟩ := exists_map_eq hsound
  have hids : (rs.map (recordHit value)).map Hit.recordId = rs.map MockRecord.recordId := by
    rw [List.map_map]
    rfl
  rw [hids] at hnodup hbest
  rw [List.pairwise_map] at hsorted
  refine ⟨rs, rfl, hsub, hnodup.of_map _, hsorted, ?_⟩
  intro r hr hout a ha
  have hnot : r.recordId ∉ rs.map MockRecord.recordId := by
    intro hin
    obtain ⟨r', hr', hid⟩ := List.mem_map.1 hin
    exact hout (List.inj_on_of_nodup_map hnd (hsub hr') hr hid ▸ hr')
  exact hbest r hr hnot _ (List.mem_map_of_mem ha)

end Records

/-! ## The two answers -/

section Answers

variable [LinearOrder S] [LinearOrder T] {o : F32 F T} {sim : List F → List F → S} {scale : S → T}
  {q : List F}

variable (filter) in
/-- The first accepted candidates are hits of best accepted records. -/
theorem exists_tenantRecords (hget : GetExact M) (hs : Simulates M s) {n : Nat}
    {cands : List (UInt64 × S)}
    (htop : TopK.IsTop (fun id => (M.vectors s.tenant.inner.index id).map (sim q)) n cands)
    (k : Nat) :
    ∃ rs, rs.map (recordHit (sim q)) =
        (cands.filterMap (s.tenant.acceptedHit filter)).take k ∧
      TopK.IsBest (fun r : MockRecord F => sim q r.embedding) (s.mock.accepted filter) rs := by
  have hfirst := Tenant.firstAccepted_take s.tenant filter k cands
  apply exists_isBest hs.nodup_accepted
  · intro hit hhit
    obtain ⟨p, hp, hpHit⟩ := List.mem_filterMap.1 (List.mem_of_mem_take hhit)
    obtain ⟨e, he, hacc, rfl⟩ := Tenant.acceptedHit_eq_some.1 hpHit
    obtain ⟨r, hr, hid, rfl⟩ := hs.exists_record he
    obtain ⟨id, score⟩ := p
    obtain rfl : r.recordId.val = id := congrArg RecordId.val hid
    -- the candidate has the score of the record's vector, and `get` reads this vector back
    have hscore := htop.sound _ hp
    rw [hs.vector r hr, Option.map_some, Option.some.injEq] at hscore
    have hread := hget s.tenant.inner.index r.recordId.val
    rw [hs.vector r hr] at hread
    refine ⟨r, List.mem_filter.2 ⟨hr, hacc⟩, ?_⟩
    rw [Tenant.hitOf, hread, recordHit, hscore]
    rfl
  · exact hfirst.nodup htop
  · exact hfirst.sorted htop
  · intro r hr hout hit hhit
    obtain ⟨hmem, hacc⟩ := List.mem_filter.1 hr
    have hscore : (M.vectors s.tenant.inner.index r.recordId.val).map (sim q) =
        some (sim q r.embedding) := by
      rw [hs.vector r hmem]
      rfl
    exact hfirst.best htop hscore ((hs.accepts hmem).trans hacc) hout hhit

/-- What relates the two similarities: on the records, the number of the cosine is the similarity of
the engine on another scale, which keeps the order. -/
structure SameMeasure (o : F32 F T) (sim : List F → List F → S) (scale : S → T) (q : List F)
    (records : List (MockRecord F)) : Prop where
  mono : StrictMono scale
  value : ∀ r ∈ records, ∀ x, o.cosine q r.embedding = .ok x →
    o.value x = some (scale (sim q r.embedding))

theorem SameMeasure.noNaN {records : List (MockRecord F)}
    (h : SameMeasure o sim scale q records) : MockTenant.NoNaN o q records := by
  intro r hr x hx
  rw [h.value r hr x hx]
  rfl

/-- The answer of the mock is the hits of best accepted records. -/
theorem exists_mockRecords (hs : Simulates M s) {k : Nat} {hits : List (Hit F F)}
    (hmeasure : SameMeasure o sim scale q (s.mock.accepted filter))
    (hcosine : ∀ r ∈ s.mock.accepted filter, ∃ x, o.cosine q r.embedding = .ok x)
    (hexact : MockTenant.ExactTopK o s.mock q filter k hits) :
    ∃ rs, rs.map (recordHit fun v => (scale (sim q v) : WithBot T)) =
        hits.map (Hit.rated o.rank) ∧
      TopK.IsBest (fun r : MockRecord F => (scale (sim q r.embedding) : WithBot T))
        (s.mock.accepted filter) rs := by
  have hrank : ∀ r ∈ s.mock.accepted filter, ∀ x, o.cosine q r.embedding = .ok x →
      o.rank x = (scale (sim q r.embedding) : WithBot T) := hmeasure.value
  have hids : (hits.map (Hit.rated o.rank)).map Hit.recordId = hits.map Hit.recordId := by
    rw [List.map_map]
    rfl
  apply exists_isBest hs.nodup_accepted
  · intro rated hrated
    obtain ⟨hit, hhit, rfl⟩ := List.mem_map.1 hrated
    obtain ⟨r, hr, hscore, hhitOf⟩ := hexact.sound hit hhit
    refine ⟨r, hr, ?_⟩
    rw [Hit.rated, hrank r hr _ hscore, hhitOf]
    rfl
  · rw [hids]
    exact hexact.nodup
  · rw [List.pairwise_map]
    exact hexact.sorted
  · intro r hr hout rated hrated
    rw [hids] at hout
    obtain ⟨hit, hhit, rfl⟩ := List.mem_map.1 hrated
    obtain ⟨x, hx⟩ := hcosine r hr
    rw [← hrank r hr x hx]
    exact hexact.best r hr hout x hx hit hhit

/-- The hits of the tenant, beside those of the mock: they are as similar as the first of these, and
they are these where no two accepted records are equally similar to the query. -/
structure Alike (o : F32 F T) (sim : List F → List F → S) (scale : S → T) (q : List F)
    (records : List (MockRecord F)) (hits : List (Hit F S)) (hits' : List (Hit F F)) : Prop where
  similarities : hits.map (fun hit => (scale hit.similarity : WithBot T)) <+:
    hits'.map fun hit => o.rank hit.similarity
  records : (∀ r ∈ records, ∀ r' ∈ records, sim q r.embedding = sim q r'.embedding → r = r') →
    hits.map (Hit.rated fun x => (scale x : WithBot T)) <+: hits'.map (Hit.rated o.rank)

/-- Two lists of best records give answers that are alike. -/
theorem alike_of_isBest {records rs rs' : List (MockRecord F)} {hits : List (Hit F S)}
    {hits' : List (Hit F F)} (hscale : StrictMono scale) (hnd : records.Nodup)
    (hhits : rs.map (recordHit (sim q)) = hits)
    (hbest : TopK.IsBest (fun r : MockRecord F => sim q r.embedding) records rs)
    (hhits' : rs'.map (recordHit fun v => (scale (sim q v) : WithBot T)) =
      hits'.map (Hit.rated o.rank))
    (hbest' : TopK.IsBest (fun r : MockRecord F => (scale (sim q r.embedding) : WithBot T))
      records rs') (hle : hits.length ≤ hits'.length) :
    Alike o sim scale q records hits hits' := by
  have hmono : StrictMono fun x : S => (scale x : WithBot T) := fun a b hab =>
    WithBot.coe_lt_coe.2 (hscale hab)
  have hlens : rs.length ≤ rs'.length := by
    have hlen := congrArg List.length hhits
    have hlen' := congrArg List.length hhits'
    rw [List.length_map] at hlen
    rw [List.length_map, List.length_map] at hlen'
    rwa [hlen, hlen']
  have hrated := hbest.comp hmono.monotone
  refine ⟨?_, ?_⟩
  · have hkeys := hrated.keys_isPrefix hbest' hnd hlens
    have hsims := congrArg (List.map Hit.similarity) hhits'
    rw [List.map_map, List.map_map] at hsims
    rw [← hhits, List.map_map]
    exact hsims ▸ hkeys
  · intro hinj
    have hpre := hrated.isPrefix hbest' hnd hlens fun r hr r' hr' heq =>
      hinj r hr r' hr' (hmono.injective heq)
    rw [← hhits, ← hhits', List.map_map]
    exact hpre.map _

end Answers

/-! ## Runs -/

section Run

/-- The id that a call inserts. -/
def Call.insertedId : Call E → Option RecordId
  | .insert _ r => some r.recordId
  | .delete _ => none
  | .subscribe _ _ => none
  | .dropStream _ => none

/-- The records of the mock are well formed, and its dimension is that of the start. -/
def Sound (dim : UInt32) (s : Twins E) : Prop := s.mock.WellFormed ∧ s.mock.dim = dim

theorem step_sound {dim : UInt32} (hs : Sound dim s) (c : Call E) : Sound dim (step s c) := by
  obtain ⟨hwf, hdim⟩ := hs
  cases c with
  | insert env r =>
    have hmock : (step s (.insert env r)).mock = (s.mock.insertRecord (mockRecord r)).1 := by
      have hinsert : s.mock.insert r.recordId r.embedding r.shareable r.tags r.payload =
          s.mock.insertRecord (mockRecord r) := rfl
      have hcall : (step s (.insert env r)).mock = (callMock (E := E) s.mock (.insert env r)).1 :=
        rfl
      rw [hcall, callMock, ← hinsert]
      split <;> rename_i heq <;> rw [heq]
    exact ⟨hmock ▸ MockTenant.insertRecord_wellFormed hwf (mockRecord r),
      hmock ▸ (MockTenant.insertRecord_dim s.mock (mockRecord r)).trans hdim⟩
  | delete id =>
    exact ⟨MockTenant.delete_wellFormed hwf id, (MockTenant.delete_dim s.mock id).trans hdim⟩
  | subscribe stream filter => exact ⟨⟨hwf.nodup, hwf.dim⟩, hdim⟩
  | dropStream stream => exact ⟨⟨hwf.nodup, hwf.dim⟩, hdim⟩

/-- What the calls do to the mock does not depend on the tenant beside it. -/
theorem run_mock (s : Twins E) (calls : List (Call E)) :
    (Runs.run step s calls).mock = Runs.run (fun t c => (callMock t c).1) s.mock calls := by
  induction calls generalizing s with
  | nil => rfl
  | cons c calls ih => exact ih (step s c)

/-- Only an insert adds a vector to the index, under its id. -/
theorem step_stored (hs : Simulates M s) {c : Call E} (ha : Accepted s c) {id : UInt64}
    (h : (M.vectors (step s c).tenant.inner.index id).isSome) :
    (M.vectors s.tenant.inner.index id).isSome ∨ c.insertedId = some ⟨id⟩ := by
  cases c with
  | insert env r =>
    obtain ⟨hdim, ⟨engine, index⟩, hins⟩ := ha
    obtain ⟨-, hvec⟩ := M.insert_ok hs.attached hins
    have htenant := callTenant_insert s.files hs.writable (hdim.trans hs.dim.symm) hins
    have hindex : (step s (.insert env r)).tenant.inner.index = index := by
      have hstep : (step s (.insert env r)).tenant =
          (callTenant s.files s.tenant (.insert env r)).2.1 := rfl
      rw [hstep, htenant]
      rfl
    rw [hindex, hvec] at h
    by_cases hid : id = r.recordId.val
    · rw [hid]
      exact Or.inr rfl
    · rw [Function.update_of_ne hid] at h
      exact Or.inl h
  | delete id' =>
    have hindex : (step s (.delete id')).tenant.inner.index = s.tenant.inner.index := by
      have hstep : (step s (.delete id')).tenant =
          (callTenant s.files s.tenant (.delete id')).2.1 := rfl
      rw [hstep, callTenant, Tenant.delete, Tenant.deleteState, if_neg (by simp [hs.writable])]
      dsimp only
      split <;> rfl
    rw [hindex] at h
    exact Or.inl h
  | subscribe stream filter => exact Or.inl h
  | dropStream stream => exact Or.inl h

/-- After a run, the index has vectors from before and of ids that were inserted. -/
theorem run_stored (hs : Simulates M s) {calls : List (Call E)}
    (haccepted : Runs.EachStep step Accepted s calls) {id : UInt64}
    (h : (M.vectors (Runs.run step s calls).tenant.inner.index id).isSome) :
    (M.vectors s.tenant.inner.index id).isSome ∨ ⟨id⟩ ∈ calls.filterMap Call.insertedId := by
  induction calls generalizing s with
  | nil => exact Or.inl h
  | cons c calls ih =>
    obtain ⟨ha, hrest⟩ := haccepted
    rcases ih (step_simulates hs ha).1 hrest h with hbefore | hmem
    · rcases step_stored hs ha hbefore with hstart | hid
      · exact Or.inl hstart
      · exact Or.inr (List.mem_filterMap.2 ⟨c, List.mem_cons_self, hid⟩)
    · obtain ⟨c', hc', hid⟩ := List.mem_filterMap.1 hmem
      exact Or.inr (List.mem_filterMap.2 ⟨c', List.mem_cons_of_mem _ hc', hid⟩)

variable [LinearOrder S] [LinearOrder T] {o : F32 F T} {sim : List F → List F → S} {scale : S → T}
  {q : List F}

variable (filter) in
/-- With room for every stored vector, the candidates hold all accepted records. -/
theorem length_accepted_le (hs : Simulates M s) {n : Nat} {cands : List (UInt64 × S)}
    (htop : TopK.IsTop (fun id => (M.vectors s.tenant.inner.index id).map (sim q)) n cands)
    {ids : List UInt64} (hids : ∀ id, (M.vectors s.tenant.inner.index id).isSome → id ∈ ids)
    (hroom : ids.length ≤ n) :
    (s.mock.accepted filter).length ≤
      (cands.filter fun p => s.tenant.accepts filter p.1).length := by
  have hscored : ∀ id, ((M.vectors s.tenant.inner.index id).map (sim q)).isSome → id ∈ ids := by
    intro id hid
    rw [Option.isSome_map] at hid
    exact hids id hid
  have hnd : ((s.mock.accepted filter).map fun r => r.recordId.val).Nodup := by
    have hids : ((s.mock.accepted filter).map MockRecord.recordId).Nodup := hs.nodup_accepted
    have hvals := hids.map fun a b hab => RecordId.val_inj.1 hab
    rwa [List.map_map] at hvals
  have hsub : ((s.mock.accepted filter).map fun r => r.recordId.val) ⊆
      (cands.filter fun p => s.tenant.accepts filter p.1).map Prod.fst := by
    intro id hid
    obtain ⟨r, hr, rfl⟩ := List.mem_map.1 hid
    obtain ⟨hmem, hacc⟩ := List.mem_filter.1 hr
    have hscore : (M.vectors s.tenant.inner.index r.recordId.val).map (sim q) =
        some (sim q r.embedding) := by
      rw [hs.vector r hmem]
      rfl
    obtain ⟨p, hp, hpid⟩ := List.mem_map.1 (htop.mem_of_length_le hscored hroom hscore)
    have haccepts : s.tenant.accepts filter p.1 = true := by
      rw [hpid]
      exact (hs.accepts hmem).trans hacc
    exact List.mem_map.2 ⟨p, List.mem_filter.2 ⟨hp, haccepts⟩, hpid⟩
  have hle := (List.subperm_of_subset hnd hsub).length_le
  rwa [List.length_map, List.length_map] at hle

/-- The answers in one state that both tenants have come to. -/
theorem answers_alike (hget : GetExact M) (hsearch : ExactSearch M sim) {dim : UInt32}
    (hs : Simulates M s) (hsound : Sound dim s) (hdim : q.length = dim.toNat) {topK : UInt32}
    (htop : 1 ≤ topK) (hmeasure : SameMeasure o sim scale q (s.mock.accepted filter)) :
    ∃ hits hits', s.tenant.queryFiltered q topK filter = .ok hits ∧
      s.mock.queryFiltered o q topK filter = .ok hits' ∧
      Alike o sim scale q (s.mock.accepted filter) hits hits' ∧
      ∀ ids : List UInt64, (∀ id, (M.vectors s.tenant.inner.index id).isSome → id ∈ ids) →
        ids.length ≤ max (topK.toNat * 4) 64 → hits.length = hits'.length := by
  obtain ⟨cands, hcands, hIsTop⟩ := hsearch s.tenant.inner.index q (Tenant.oversample topK)
  have hq : asU32 q.length = s.tenant.embeddingDim := by
    rw [hs.dim, hsound.2, hdim, asU32]
    exact UInt32.ofNat_toNat
  have hone : max topK.toNat 1 = topK.toNat :=
    max_eq_left (UInt32.le_iff_toNat_le.1 htop)
  have hquery : s.tenant.queryFiltered q topK filter =
      .ok ((cands.filterMap (s.tenant.acceptedHit filter)).take (max topK.toNat 1)) :=
    Tenant.queryFiltered_eq hq hcands
  rw [hone] at hquery
  have hmockDim : q.length = s.mock.dim.toNat := by rw [hdim, hsound.2]
  obtain ⟨hits', hmock, hexact⟩ :=
    MockTenant.queryFiltered_ok hsound.1 hmockDim hmeasure.noNaN topK
  have hcosine : ∀ r ∈ s.mock.accepted filter, ∃ x, o.cosine q r.embedding = .ok x := by
    intro r hr
    apply F32.cosine_ok
    rw [hmockDim, ← hsound.1.dim r (List.mem_filter.1 hr).1, toNat_asU32]
    exact Nat.mod_le _ _
  obtain ⟨rs, hrs, hbest⟩ := exists_tenantRecords filter hget hs hIsTop topK.toNat
  obtain ⟨rs', hrs', hbest'⟩ := exists_mockRecords hs hmeasure hcosine hexact
  have hlength := (Tenant.firstAccepted_take s.tenant filter topK.toNat cands).length_eq
  have hmost : (cands.filter fun p => s.tenant.accepts filter p.1).length ≤
      (s.mock.accepted filter).length := by
    have hcount : (s.tenant.liveAccepted filter).length = (s.mock.accepted filter).length :=
      hs.length_accepted
    exact hcount ▸ Tenant.length_accepted_le hIsTop
  refine ⟨_, hits', hquery, hmock, ?_, fun ids hids hroom => ?_⟩
  · apply alike_of_isBest hmeasure.mono (hs.nodup_accepted.of_map _) hrs hbest hrs' hbest'
    rw [hlength, hexact.length]
    exact min_le_min_left _ hmost
  · rw [hlength, hexact.length, le_antisymm hmost (length_accepted_le filter hs hIsTop hids hroom)]

/-- After every run of accepted calls, a query of the tenants' dimension for at least one hit has an
answer from both. That of the tenant is like the first hits of the mock's, and has as many hits when
the directory was new and the ids of the inserts fit into the candidates. -/
theorem queryFiltered_alike (M : E.Model) (hget : GetExact M) (hsearch : ExactSearch M sim)
    {J : SerdeJson} {env : OpenEnv E} {dir : PathBuf} {files files' : Dir E} {tenantId : TenantId}
    {embeddingDim : UInt32} {t : Tenant E}
    (hopen : Tenant.open J env dir files tenantId embeddingDim = (files', .ok t))
    (hempty : t.inner.sidecar.records = []) {calls : List (Call E)}
    (haccepted : Runs.EachStep step Accepted (start tenantId embeddingDim files' t) calls)
    (hdim : q.length = embeddingDim.toNat) {topK : UInt32} (htop : 1 ≤ topK)
    (hmeasure : SameMeasure o sim scale q
      ((Runs.run step (start tenantId embeddingDim files' t) calls).mock.accepted filter)) :
    ∃ hits hits',
      (Runs.run step (start tenantId embeddingDim files' t) calls).tenant.queryFiltered q topK
        filter = .ok hits ∧
      (Runs.run step (start tenantId embeddingDim files' t) calls).mock.queryFiltered o q topK
        filter = .ok hits' ∧
      Alike o sim scale q
        ((Runs.run step (start tenantId embeddingDim files' t) calls).mock.accepted filter)
        hits hits' ∧
      (indexExists files.engine = false →
        (calls.filterMap Call.insertedId).dedup.length ≤ max (topK.toNat * 4) 64 →
          hits.length = hits'.length) := by
  have hstart : Simulates M (start tenantId embeddingDim files' t) := start_simulates hopen hempty
  have hsoundStart : Sound embeddingDim (start tenantId embeddingDim files' t) :=
    ⟨⟨List.nodup_nil, fun r hr => by simp [start, MockTenant.new] at hr⟩, rfl⟩
  have hstep : ∀ (s : Twins E) c, Simulates M s → Accepted s c → Simulates M (step s c) :=
    fun s c hs ha => (step_simulates hs ha).1
  have hs := Runs.run_of_step step hstep hstart haccepted
  have hsoundStep : ∀ (s : Twins E) c, Sound embeddingDim s → Sound embeddingDim (step s c) :=
    fun s c hs => step_sound hs c
  have hsound := Runs.run_invariant step hsoundStep hsoundStart calls
  obtain ⟨hits, hits', hquery, hmock, halike, hwhole⟩ :=
    answers_alike hget hsearch hs hsound hdim htop hmeasure
  refine ⟨hits, hits', hquery, hmock, halike, fun hnew hroom => ?_⟩
  have hnone : M.vectors t.inner.index = fun _ => none :=
    (Tenant.open_ok M hopen).vectors.trans (M.absent hnew)
  apply hwhole ((calls.filterMap Call.insertedId).dedup.map RecordId.val)
  · intro id hid
    rcases run_stored hstart haccepted hid with hbefore | hmem
    · have hbefore' : (M.vectors t.inner.index id).isSome := hbefore
      rw [hnone] at hbefore'
      simp at hbefore'
    · exact List.mem_map.2 ⟨⟨id⟩, List.mem_dedup.2 hmem, rfl⟩
  · rwa [List.length_map]

end Run

section Likes

open Reference

/-- Two shareable notes, and a private one that was written twice and deleted. -/
def likes : List (Call engine) :=
  [.insert false ⟨⟨1⟩, [-1], true, ["a"], [7]⟩, .insert false ⟨⟨2⟩, [1], true, [], [8]⟩,
    .insert false ⟨⟨3⟩, [1], false, [], []⟩, .insert false ⟨⟨3⟩, [-1], false, [], [9]⟩,
    .delete ⟨3⟩]

/-- The cosine of signs is one more than the negative distance. -/
theorem queryFiltered_alike_example :
    ∃ files t hits hits', opening = (files, .ok t) ∧
      (Runs.run step (start .zero 1 files t) likes).tenant.queryFiltered [1] 2
        (fun record => record.shareable) = .ok hits ∧
      (Runs.run step (start .zero 1 files t) likes).mock.queryFiltered MockTenant.wholeFloats [1] 2
        (fun record => record.shareable) = .ok hits' ∧
      Alike MockTenant.wholeFloats similarity (· + 1) [1]
        ((Runs.run step (start .zero 1 files t) likes).mock.accepted fun record => record.shareable)
        hits hits' ∧ hits.length = hits'.length := by
  have hopen : ∃ files t, opening = (files, .ok t) ∧ t.inner.sidecar.records = [] :=
    ⟨_, _, rfl, rfl⟩
  obtain ⟨files, t, hopen, hempty⟩ := hopen
  have haccepted : Runs.EachStep step Accepted (start .zero 1 files t) likes := by
    simp only [likes, Runs.EachStep, Accepted, and_true]
    exact ⟨⟨rfl, _, rfl⟩, ⟨rfl, _, rfl⟩, ⟨rfl, _, rfl⟩, rfl, _, rfl⟩
  have hmeasure : SameMeasure MockTenant.wholeFloats similarity (· + 1) [1]
      ((Runs.run step (start .zero 1 files t) likes).mock.accepted
        fun record => record.shareable) := by
    have haccepted : (Runs.run step (start .zero 1 files t) likes).mock.accepted
        (fun record => record.shareable) =
          [⟨⟨1⟩, [-1], true, ["a"], [7]⟩, ⟨⟨2⟩, [1], true, [], [8]⟩] := by
      have hnew : (start .zero 1 files t).mock = .new .zero 1 := rfl
      rw [run_mock, hnew]
      decide +kernel
    refine ⟨fun a b hab => Int.add_lt_add_right hab 1, ?_⟩
    have hfar : MockTenant.wholeFloats.cosine [1] [-1] = .ok (-1) := rfl
    have hnear : MockTenant.wholeFloats.cosine [1] [1] = .ok 1 := rfl
    rw [haccepted, List.forall_mem_cons, List.forall_mem_singleton]
    constructor
    · intro x hx
      rw [← Except.ok.inj (hfar.symm.trans hx)]
      rfl
    · intro x hx
      rw [← Except.ok.inj (hnear.symm.trans hx)]
      rfl
  obtain ⟨hits, hits', hquery, hmock, halike, hwhole⟩ := queryFiltered_alike model getExact
    exactSearch hopen hempty haccepted (by rfl : ([1] : List Int).length = (1 : UInt32).toNat)
    (by decide : (1 : UInt32) ≤ 2) hmeasure
  have hnew : indexExists (Dir.fresh : Dir engine).engine = false := rfl
  have hroom : (likes.filterMap Call.insertedId).dedup.length ≤ max ((2 : UInt32).toNat * 4) 64 :=
    by decide +kernel
  exact ⟨files, t, hits, hits', hopen, hquery, hmock, halike, hwhole hnew hroom⟩

end Likes

end Twins

end SkegRigging
