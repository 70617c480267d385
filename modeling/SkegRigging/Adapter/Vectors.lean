import SkegRigging.Adapter.Copy
import SkegRigging.Adapter.Dimensions
import SkegRigging.Reference.Engine
import SkegRigging.Reference.Json

/-!
# Listed records have vectors

An insert writes the vector before the sidecar entry, and no operation removes a vector. So whatever
sidecar a restart brings back, older than the index or not, each of its ids has a vector
(`listed_vectors`), of the dimension that `insert` compared it with.

That comparison is between `u32` values, so a vector with more components than a `u32` counts can
pass it. Whether such a vector is stored is up to the engine (`RefusesHuge`).
-/

set_option autoImplicit false

namespace SkegRigging

open DiskVamanaIndex History

variable {F S : Type} {E : DiskVamanaIndex F S}

namespace DiskVamanaIndex

/-- The engine stores no vector with more components than a `u32` counts. -/
def RefusesHuge (E : DiskVamanaIndex F S) : Prop :=
  ∀ {env files h id v out}, E.insert env files h id v = (out, .ok ()) → v.length < 2 ^ 32

/-- Where `get` reports no error it returns the vector of the id. -/
def GetSound (M : E.Model) : Prop := ∀ h id o, E.get h id = .ok o → o = M.vectors h id

theorem GetExact.sound {M : E.Model} (h : GetExact M) : GetSound M :=
  fun index id _ hget => (Except.ok.inj ((h index id).symm.trans hget)).symm

end DiskVamanaIndex

/-- A vector as an insert accepts it in a tenant of dimension `dim`. -/
structure FitsDim (E : DiskVamanaIndex F S) (dim : UInt32) (v : List F) : Prop where
  asU32 : asU32 v.length = dim
  exact : RefusesHuge E → v.length = dim.toNat

namespace Tenant

variable {J : SerdeJson} {dir : PathBuf} {files files' : Dir E} {t t' : Tenant E}

/-- An insert that succeeds was given a vector of the tenant's dimension. -/
theorem insert_fits {env : E.Env} {r : Record F}
    (h : insert env files t r = (files', t', .ok ())) : FitsDim E t.embeddingDim r.embedding := by
  rw [insert_eq] at h
  have hres : (insertState env files t r).2.2 = .ok () := congrArg (fun o => o.2.2) h
  have hdim : asU32 r.embedding.length = t.embeddingDim := by
    by_contra hne
    unfold insertState at hres
    rw [if_pos hne] at hres
    split at hres <;> simp at hres
  refine ⟨hdim, ?_⟩
  intro hhuge
  generalize hs : insertState env files t r = o at hres
  obtain ⟨mid, t₁, res⟩ := o
  rcases insertState_ends hs with ⟨-, -, e, rfl⟩ | ⟨-, engine, index, ires, hins, -, hcase⟩
  · simp at hres
  · rcases hcase with ⟨⟨e, -, rfl⟩, -⟩ | ⟨rfl, -, -⟩
    · simp at hres
    · rw [← hdim, toNat_asU32, Nat.mod_eq_of_lt (hhuge hins)]

end Tenant

namespace Session

variable {M : E.Model} {J : SerdeJson} {dir : PathBuf}

/-! ## Every insert had the dimension of the tenant -/

/-- Some sidecar was written, and the last one has the dimension `dim`. -/
def WrittenDim (h : List (Mark F)) (dim : UInt32) : Prop :=
  ∃ w, written h = some w ∧ w.embeddingDim = dim

/-- Every vector that was inserted has the dimension of the last sidecar, and so does the handle. -/
structure Fits (s : Session E) : Prop where
  marks : ∀ r, Mark.inserted r ∈ s.history →
    ∃ dim, WrittenDim s.history dim ∧ FitsDim E dim r.embedding
  held : ∀ t, s.handle = some t → WrittenDim s.history t.inner.sidecar.embeddingDim

/-- A write of a sidecar of the same dimension. -/
theorem Fits.wrote {h : List (Mark F)} {w : MetadataSidecar}
    (hmarks : ∀ r, Mark.inserted r ∈ h → ∃ dim, WrittenDim h dim ∧ FitsDim E dim r.embedding)
    (hw : ∀ dim, WrittenDim h dim → dim = w.embeddingDim) (r : Tenant.Record F)
    (hr : Mark.inserted r ∈ Mark.wrote w :: h) :
    ∃ dim, WrittenDim (.wrote w :: h) dim ∧ FitsDim E dim r.embedding := by
  obtain ⟨dim, hdim, hfits⟩ := hmarks r (by simpa using hr)
  exact ⟨dim, ⟨w, rfl, (hw dim hdim).symm⟩, hfits⟩

theorem WrittenDim.unique {h : List (Mark F)} {dim dim' : UInt32} (hd : WrittenDim h dim)
    (hd' : WrittenDim h dim') : dim = dim' := by
  obtain ⟨w, hw, rfl⟩ := hd
  obtain ⟨w', hw', rfl⟩ := hd'
  rw [hw, Option.some.injEq] at hw'
  rw [hw']

/-- The insert that a step recorded passed the check of the dimension. -/
theorem step_insert_fits {s s' : Session E} {env : E.Env} {r : Tenant.Record F} {t : Tenant E}
    (ht : s.handle = some t) (h : step J dir s (.insert env r) = s')
    (hhist : s'.history = .inserted r :: s.history) : FitsDim E t.embeddingDim r.embedding := by
  simp only [step, ht] at h
  generalize hins : t.insert env s.files r = o at h
  obtain ⟨files', t', res⟩ := o
  cases res with
  | ok u => exact Tenant.insert_fits hins
  | error e =>
    rw [← h] at hhist
    exact absurd hhist.symm (List.cons_ne_self _ _)

theorem step_fits {s : Session E} (hs : Inv M J s)
    (hdim : ∀ t, s.handle = some t → SidecarDim t) (hf : Fits s) (o : Op E) :
    Fits (step J dir s o) := by
  have htrans := step_trans hs dir o
  generalize hs' : step J dir s o = s' at htrans
  cases htrans with
  | idle _ => exact hf
  | failed _ hnone _ _ => exact ⟨hf.marks, fun t ht => by simp [hnone] at ht⟩
  | loaded _ _ _ _ hold hparse _ =>
    refine ⟨hf.marks, ?_⟩
    intro t ht
    cases ht
    exact ⟨_, hs.disk.persisted _ _ hold hparse, rfl⟩
  | fresh _ _ _ _ hold _ _ _ =>
    -- without a `meta.json` no sidecar was written, and so nothing was inserted
    have hnever : ∀ dim, ¬ WrittenDim s.history dim := by
      rintro dim ⟨w, hw, -⟩
      rw [hs.disk.unwritten hold] at hw
      simp at hw
    refine ⟨Fits.wrote hf.marks fun dim hd => absurd hd (hnever dim), ?_⟩
    intro t ht
    cases ht
    exact ⟨_, rfl, rfl⟩
  | index _ ht _ _ _ hsidecar _ =>
    refine ⟨hf.marks, ?_⟩
    intro t' ht'
    cases ht'
    rw [hsidecar]
    exact hf.held _ ht
  | @inserted env r files' t t' ht _ _ _ hsidecar _ =>
    have hheld := hf.held t ht
    have hfits := step_insert_fits ht hs' rfl
    refine ⟨?_, ?_⟩
    · intro r' hr'
      rcases List.mem_cons.1 hr' with heq | hold
      · cases heq
        exact ⟨_, hheld, hdim t ht ▸ hfits⟩
      · exact hf.marks r' hold
    · intro t₁ ht₁
      cases ht₁
      rw [hsidecar]
      exact hheld
  | removed ht _ _ hsidecar _ =>
    refine ⟨hf.marks, ?_⟩
    intro t' ht'
    cases ht'
    rw [hsidecar]
    exact hf.held _ ht
  | @wrote o files' t _ ht _ _ _ =>
    refine ⟨Fits.wrote hf.marks fun dim hd => hd.unique (hf.held t ht), ?_⟩
    intro t' ht'
    cases ht.symm.trans ht'
    exact ⟨_, rfl, rfl⟩
  | unwritten _ ht _ _ _ => exact ⟨hf.marks, hf.held⟩
  | closed => exact ⟨hf.marks, fun t ht => by simp at ht⟩

theorem runs_fits (M : E.Model) (hJ : J.Laws) (dir : PathBuf) (ops : List (Op E)) :
    Fits (runs J dir ops) := by
  have hdims : OnHandles J dir (SidecarDim : Tenant E → Prop) := onHandles_sidecarDim J dir
  have hstep : ∀ s o, (Inv M J s ∧ (∀ t, s.handle = some t → SidecarDim t) ∧ Fits s) →
      Inv M J (step J dir s o) ∧ (∀ t, (step J dir s o).handle = some t → SidecarDim t) ∧
        Fits (step J dir s o) :=
    fun s o hs => ⟨step_inv hJ dir hs.1 o, hdims.step hs.2.1 o, step_fits hs.1 hs.2.1 hs.2.2 o⟩
  have hinit : Fits (init : Session E) :=
    ⟨fun r hr => by simp [init] at hr, fun t ht => by simp [init] at ht⟩
  have hnone : ∀ t, (init : Session E).handle = some t → SidecarDim t :=
    fun t ht => by simp [init] at ht
  exact (Runs.run_invariant (step J dir) hstep ⟨init_inv, hnone, hinit⟩ ops).2.2

/-! ## Every listed record has a vector -/

/-- The ids of the sidecar `w` are distinct and each has a vector of dimension `dim`. -/
structure HasVectors (E : DiskVamanaIndex F S) (vectors : UInt64 → Option (List F))
    (w : MetadataSidecar) (dim : UInt32) : Prop where
  nodup : w.ids.Nodup
  vector : ∀ e ∈ w.records, ∃ v, vectors e.recordId = some v ∧ FitsDim E dim v

/-- What was listed was inserted, so its latest vector is there, and it is that of an insert. -/
theorem Listed.hasVectors {s : Session E} {w : MetadataSidecar} (hw : Listed s.history w)
    (hf : Fits s) (hdim : WrittenDim s.history w.embeddingDim) :
    HasVectors E (latest s.history) w w.embeddingDim := by
  refine ⟨hw.nodup, ?_⟩
  intro e he
  obtain ⟨r, hr, rfl⟩ := hw.entry e he
  obtain ⟨v, hv⟩ := Option.isSome_iff_exists.1 (latest_isSome hr)
  obtain ⟨r', hr', -, rfl⟩ := inserted_of_latest hv
  obtain ⟨dim, hd, hfits⟩ := hf.marks r' hr'
  exact ⟨r'.embedding, hv, hd.unique hdim ▸ hfits⟩

end Session

namespace Tenant

variable {M : E.Model} {t : Tenant E} {dim : UInt32}

/-- `iter_vectors` lists every record with its vector, in sidecar order. -/
structure IteratesAll (M : E.Model) (t : Tenant E) : Prop where
  ids : t.iterVectors.map Prod.fst = t.inner.sidecar.records.map fun e => ⟨e.recordId⟩
  count : t.iterVectors.length = t.recordCount
  vector : ∀ p ∈ t.iterVectors, M.vectors t.inner.index p.1.val = some p.2

/-- When every id has a vector and no read fails, nothing is skipped. -/
theorem iterVectors_all (hget : GetSound M)
    (hvec : Session.HasVectors E (M.vectors t.inner.index) t.inner.sidecar dim)
    (hread : ∀ e ∈ t.inner.sidecar.records, ∀ err, E.get t.inner.index e.recordId ≠ .error err) :
    IteratesAll M t := by
  have hone : ∀ e ∈ t.inner.sidecar.records, ∃ v, E.get t.inner.index e.recordId = .ok (some v) ∧
      M.vectors t.inner.index e.recordId = some v := by
    intro e he
    obtain ⟨v, hv, -⟩ := hvec.vector e he
    cases hres : E.get t.inner.index e.recordId with
    | error err => exact absurd hres (hread e he err)
    | ok o =>
      have ho := hget _ _ _ hres
      exact ⟨v, by rw [ho, hv], hv⟩
  have hids : t.iterVectors.map Prod.fst = t.inner.sidecar.records.map fun e => ⟨e.recordId⟩ := by
    rw [iterVectors, List.map_filterMap]
    rw [← List.filterMap_eq_map]
    apply List.filterMap_congr
    intro e he
    obtain ⟨v, hv, -⟩ := hone e he
    rw [hv]
    rfl
  refine ⟨hids, ?_, ?_⟩
  · have hlen := congrArg List.length hids
    rw [List.length_map, List.length_map] at hlen
    exact hlen
  · intro p hp
    obtain ⟨e, he, hpe⟩ := List.mem_filterMap.1 hp
    obtain ⟨v, hv, hvec'⟩ := hone e he
    rw [hv] at hpe
    rw [← Option.some.inj hpe]
    exact hvec'

end Tenant

namespace Session

/-- For every engine and every run of opens, inserts, deletes, flushes, consolidations, drops and
crashes: the records of the open tenant, and of the sidecar on disk, have distinct ids, and each has
a vector of the tenant's dimension in the index. When no read fails, `iter_vectors` lists them all,
in sidecar order. -/
theorem listed_vectors (M : E.Model) {J : SerdeJson} (hJ : J.Laws) (dir : PathBuf)
    (ops : List (Op E)) :
    (∀ t, (runs J dir ops).handle = some t →
      HasVectors E (M.vectors t.inner.index) t.inner.sidecar t.embeddingDim ∧
        (GetSound M → (∀ e ∈ t.inner.sidecar.records, ∀ err,
          E.get t.inner.index e.recordId ≠ .error err) → Tenant.IteratesAll M t)) ∧
    (∀ w, Tenant.diskSidecar J (runs J dir ops).files = some w →
      HasVectors E (M.stored (runs J dir ops).files.engine) w w.embeddingDim) := by
  have hinv : Inv M J (runs J dir ops) := runs_inv hJ dir ops
  have hfits := runs_fits M hJ dir ops
  refine ⟨?_, ?_⟩
  · intro t ht
    have hvec : HasVectors E (M.vectors t.inner.index) t.inner.sidecar t.embeddingDim := by
      have hlisted := (hinv.held t ht).listed.hasVectors hfits (hfits.held t ht)
      rw [hinv.vectors M J ht, ← runs_sidecarDim J dir ops t ht]
      exact hlisted
    exact ⟨hvec, fun hget hread => Tenant.iterVectors_all hget hvec hread⟩
  · intro w hw
    obtain ⟨bytes, hmeta, hparse⟩ := Tenant.diskSidecar_eq_some hw
    have hwritten := hinv.disk.persisted bytes w hmeta hparse
    rw [hinv.disk.stored]
    exact (hinv.disk.listed w hwritten).hasVectors hfits ⟨w, hwritten, rfl⟩

section Restart

open Reference

theorem refusesHuge_checkedEngine : RefusesHuge checkedEngine := by
  intro env files h id v out hins
  obtain ⟨files', h'⟩ := out
  rcases insertChecked_cases hins with ⟨-, -, hr⟩ | ⟨hlen, -⟩
  · simp at hr
  · exact hlen

/-- The record 1 is flushed and then deleted, the record 2 is never flushed; a restart brings back
the first and forgets the second. -/
def staleRestart : List (Op engine) :=
  [.open quiet .zero 1, .insert false ⟨⟨1⟩, [5], true, [], [1]⟩, .flush .done, .delete ⟨1⟩,
    .insert false ⟨⟨2⟩, [9], true, [], [2]⟩, .close, .open quiet .zero 1]

/-- A record of an engine that checks the length. -/
def checkedRun : List (Op checkedEngine) :=
  [.open ⟨none, none, false, .done⟩ .zero 1, .insert false ⟨⟨1⟩, [5], true, [], [1]⟩]

theorem listed_vectors_example :
    (∃ t, (runs json home staleRestart).handle = some t ∧ t.inner.sidecar.ids = [1] ∧
      HasVectors engine (model.vectors t.inner.index) t.inner.sidecar t.embeddingDim ∧
      Tenant.IteratesAll model t) ∧
    ∃ t, (runs json home checkedRun).handle = some t ∧
      ∃ v, checkedModel.vectors t.inner.index 1 = some v ∧ v.length = t.embeddingDim.toNat := by
  refine ⟨?_, ?_⟩
  rotate_left
  · have hids : ((runs json home checkedRun).handle.map fun t => t.inner.sidecar.ids) =
        some [1] := by
      decide +kernel
    obtain ⟨t, ht, hids⟩ := Option.map_eq_some_iff.1 hids
    obtain ⟨hvec, -⟩ := (listed_vectors checkedModel json_laws home checkedRun).1 t ht
    have hmem : 1 ∈ t.inner.sidecar.ids := by
      rw [hids]
      exact List.mem_singleton_self 1
    obtain ⟨e, he, hid⟩ := List.mem_map.1 hmem
    obtain ⟨v, hv, hfits⟩ := hvec.vector e he
    exact ⟨t, ht, v, hid ▸ hv, hfits.exact refusesHuge_checkedEngine⟩
  have hids : ((runs json home staleRestart).handle.map fun t => t.inner.sidecar.ids) =
      some [1] := by
    decide +kernel
  obtain ⟨t, ht, hids⟩ := Option.map_eq_some_iff.1 hids
  obtain ⟨hvec, hiter⟩ := (listed_vectors model json_laws home staleRestart).1 t ht
  refine ⟨t, ht, hids, hvec, hiter getExact.sound ?_⟩
  intro e _ err herr
  rw [getExact] at herr
  simp at herr

end Restart

end Session

end SkegRigging
