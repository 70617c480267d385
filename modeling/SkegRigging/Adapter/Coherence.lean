import SkegRigging.Adapter.Search
import SkegRigging.Adapter.Session
import SkegRigging.Reference.Engine
import SkegRigging.Reference.Json

/-!
# Hits are whole records

A hit takes its vector from the engine and the rest from the sidecar. The two have different
durability: an insert is durable in the engine at once and in the sidecar at the next flush. An id
that is in the persisted sidecar and was inserted again since, with another vector, comes back after
a restart with the new vector and the old entry (`Coherence.tornOverwrite`).

`CleanRestart` excludes exactly that. In a run whose opens are all clean, every entry of the open
handle is `Backed`: one insert supplied both the entry and the vector.
-/

set_option autoImplicit false

namespace SkegRigging

open DiskVamanaIndex History

namespace Session

variable {F S : Type} {E : DiskVamanaIndex F S} {M : E.Model} {J : SerdeJson}

/-- One insert supplied the entry `e` and the latest vector of its id. -/
def Backed (h : List (Mark F)) (e : RecordEntry) : Prop :=
  ∃ r, Mark.inserted r ∈ h ∧ r.entry = e ∧ latest h e.recordId = some r.embedding

/-- No id of the sidecar last written has been given another vector since that write. -/
def CleanRestart (s : Session E) : Prop :=
  ∀ w ∈ written s.history, ∀ e ∈ w.records,
    latest s.history e.recordId = latest (beforeWrite s.history) e.recordId

/-- Every entry, of the open handle and of the sidecar at the time it was written, is backed. -/
structure Coherent (s : Session E) : Prop where
  held : ∀ t, s.handle = some t → ∀ e ∈ t.inner.sidecar.records, Backed s.history e
  persisted : ∀ w, written s.history = some w → ∀ e ∈ w.records, Backed (beforeWrite s.history) e

theorem Backed.wrote {h : List (Mark F)} {e : RecordEntry} (he : Backed h e)
    (w : MetadataSidecar) : Backed (.wrote w :: h) e := by
  obtain ⟨r, hr, hentry, hvec⟩ := he
  exact ⟨r, List.mem_cons_of_mem _ hr, hentry, hvec⟩

/-- An insert of another id leaves an entry backed. -/
theorem Backed.inserted {h : List (Mark F)} {e : RecordEntry} (he : Backed h e)
    {r : Tenant.Record F} (hne : e.recordId ≠ r.recordId.val) : Backed (.inserted r :: h) e := by
  obtain ⟨r', hr', hentry, hvec⟩ := he
  refine ⟨r', List.mem_cons_of_mem _ hr', hentry, ?_⟩
  rw [latest_inserted, Function.update_of_ne hne]
  exact hvec

/-- An insert backs its own entry. -/
theorem backed_entry (r : Tenant.Record F) (h : List (Mark F)) :
    Backed (.inserted r :: h) r.entry :=
  ⟨r, List.mem_cons_self, rfl, Function.update_self _ _ _⟩

/-- An entry backed at the last write is backed after a clean restart. -/
theorem CleanRestart.backed {s : Session E} (hclean : CleanRestart s) (hs : Coherent s)
    {w : MetadataSidecar} (hw : written s.history = some w) {e : RecordEntry}
    (he : e ∈ w.records) : Backed s.history e := by
  obtain ⟨r, hr, hentry, hvec⟩ := hs.persisted w hw e he
  exact ⟨r, beforeWrite_subset hr, hentry, (hclean w hw e he).trans hvec⟩

/-- One step keeps coherence, when an open is a clean restart. -/
theorem Trans.coherent {s s' : Session E} {o : Op E} (h : Trans M J s o s') (hs : Inv M J s)
    (hc : Coherent s) (hclean : o.isOpen = true → CleanRestart s) : Coherent s' := by
  cases h with
  | idle _ => exact hc
  | failed _ _ _ _ => exact ⟨hc.held, hc.persisted⟩
  -- the one place where old entries meet new vectors
  | loaded hopen _ _ _ hold hparse _ =>
    refine ⟨?_, hc.persisted⟩
    intro t ht e he
    cases ht
    exact (hclean hopen).backed hc (hs.disk.persisted _ _ hold hparse) he
  -- an adopted index may hold vectors, but no entry refers to them yet
  | fresh _ _ _ _ _ hempty _ _ =>
    refine ⟨?_, ?_⟩
    · intro t ht e he
      cases ht
      rw [hempty] at he
      simp [MetadataSidecar.empty] at he
    · intro w hw e he
      rw [written_wrote, Option.some.injEq] at hw
      rw [← hw, hempty] at he
      simp [MetadataSidecar.empty] at he
  | index _ ht _ _ _ hsidecar _ =>
    refine ⟨?_, hc.persisted⟩
    intro t ht' e he
    cases ht'
    rw [hsidecar] at he
    exact hc.held _ ht e he
  | @inserted env r files' t t' ht _ _ _ hsidecar _ =>
    refine ⟨?_, hc.persisted⟩
    intro t ht' e he
    cases ht'
    rw [hsidecar] at he
    -- the new entry is backed by this insert; the others have another id
    rcases (Keyed.mem_upsert_iff _ (hs.held _ ht).listed.nodup).1 he with rfl | ⟨he', hne⟩
    · exact backed_entry r s.history
    · exact (hc.held _ ht e he').inserted hne
  | removed ht _ _ hsidecar _ =>
    refine ⟨?_, hc.persisted⟩
    intro t ht' e he
    cases ht'
    rw [hsidecar] at he
    exact hc.held _ ht e ((Keyed.mem_remove RecordEntry.recordId).1 he).1
  -- what the handle holds now is what the next restart will find
  | wrote _ ht _ _ _ =>
    refine ⟨?_, ?_⟩
    · intro t' ht' e he
      exact (hc.held t' ht' e he).wrote _
    · intro w hw e he
      rw [written_wrote, Option.some.injEq] at hw
      rw [← hw] at he
      exact hc.held _ ht e he
  | unwritten _ _ _ _ _ => exact ⟨hc.held, hc.persisted⟩
  | closed => exact ⟨fun t ht => by simp at ht, hc.persisted⟩

theorem init_coherent : Coherent (init : Session E) :=
  ⟨fun t ht => by simp [init] at ht, fun w hw => by simp [init] at hw⟩

/-- A step that opens a handle starts from a session whose restart is clean. -/
def OpensCleanly (s : Session E) (o : Op E) : Prop := o.isOpen = true → CleanRestart s

instance [DecidableEq F] (s : Session E) (o : Op E) : Decidable (OpensCleanly s o) :=
  inferInstanceAs (Decidable (o.isOpen = true → ∀ w ∈ written s.history, ∀ e ∈ w.records,
    latest s.history e.recordId = latest (beforeWrite s.history) e.recordId))

/-- Along a run whose opens are all clean restarts, every hit of every query is one whole record. -/
theorem coherent_runs (M : E.Model) (hJ : J.Laws) (dir : PathBuf) {ops : List (Op E)}
    (hclean : Runs.EachStep (step J dir) OpensCleanly init ops) :
    Coherent (runs J dir ops) := by
  have hstep : ∀ s o, Inv M J s ∧ Coherent s → OpensCleanly s o →
      Inv M J (step J dir s o) ∧ Coherent (step J dir s o) := fun s o hs ho =>
    ⟨step_inv hJ dir hs.1 o, (step_trans hs.1 dir o).coherent hs.1 hs.2 ho⟩
  exact (Runs.run_of_step (step J dir) hstep ⟨init_inv, init_coherent⟩ hclean).2

/-- Every hit of every query comes from one insert of its id that returned `Ok`: its embedding, its
payload, and the metadata that the filter decided on. -/
def HitsWhole (s : Session E) : Prop :=
  ∀ t, s.handle = some t → ∀ embedding topK filter hits,
    t.queryFiltered embedding topK filter = .ok hits → ∀ hit ∈ hits,
      ∃ r, Mark.inserted r ∈ s.history ∧ r.recordId = hit.recordId ∧
        hit.embedding = some r.embedding ∧ hit.payload = r.payload ∧
        t.inner.sidecar.get hit.recordId = some r.entry ∧
        filter ⟨hit.recordId, r.shareable, r.tags⟩ = true

/-- In a run whose opens are all clean restarts, in every state, every hit is whole. -/
theorem hits_whole (hget : GetExact M) (hJ : J.Laws) (dir : PathBuf) {ops : List (Op E)}
    (hclean : Runs.EachStep (step J dir) OpensCleanly init ops) :
    Runs.EachState (step J dir) HitsWhole init ops := by
  rw [Runs.eachState_iff]
  intro pre hpre t ht embedding topK filter hits hq hit hmem
  have hs : Inv M J (runs J dir pre) := runs_inv hJ dir pre
  -- the hypothesis is about the steps, so it also holds of every prefix
  have hc : Coherent (runs J dir pre) := coherent_runs M hJ dir (hclean.restrict _ hpre)
  obtain ⟨e, hfind, hacc, hhit⟩ := Tenant.mem_queryFiltered hq hmem
  obtain ⟨r, hr, hentry, hvec⟩ := hc.held t ht e (Keyed.mem_of_find _ hfind)
  have hid : e.recordId = hit.recordId.val := Keyed.key_of_find _ hfind
  have hrid : r.recordId = hit.recordId := by
    have : r.recordId.val = hit.recordId.val := by rw [← hid, ← hentry]; rfl
    exact congrArg RecordId.mk this
  have hvectors : M.vectors t.inner.index hit.recordId.val = some r.embedding := by
    rw [hs.vectors M J ht, ← hid]
    exact hvec
  have hread : E.get t.inner.index hit.recordId.val = .ok (some r.embedding) := by
    rw [hget, hvectors]
  -- entry, filter decision and vector all come from the insert `r`
  subst hentry
  refine ⟨r, hr, hrid, ?_, ?_, hfind, hacc⟩
  · rw [hhit]
    simp only [Tenant.hitOf, hread]
  · rw [hhit]
    rfl

/-! ## An overwrite that was not flushed -/

section TornOverwrite

open Reference

/-- A record, and its overwrite with another vector, another payload and a private flag. -/
def original : Tenant.Record Int := ⟨⟨1⟩, [0], true, ["note"], [1]⟩

def overwrite : Tenant.Record Int := ⟨⟨1⟩, [5], false, [], [2]⟩

/-- The overwrite comes after the flush and before the restart. -/
def tornOverwrite : List (Op engine) :=
  [.open quiet .zero 1, .insert false original, .flush .done, .insert false overwrite, .close,
    .open quiet .zero 1]

/-- A clean run: the overwrite is flushed too. -/
def flushedOverwrite : List (Op engine) :=
  [.open quiet .zero 1, .insert false original, .flush .done, .insert false overwrite, .flush .done,
    .close, .open quiet .zero 1]

theorem hits_whole_example :
    Runs.EachStep (step json home) OpensCleanly init flushedOverwrite ∧
      Runs.EachState (step json home) HitsWhole init flushedOverwrite := by
  have hclean : Runs.EachStep (step json home) OpensCleanly init flushedOverwrite := by
    decide +kernel
  exact ⟨hclean, hits_whole getExact json_laws home hclean⟩

/-- After the restart a query for shareable records returns the private vector of the overwrite with
the payload of the original. -/
theorem hits_whole_tornOverwrite :
    ¬ ∀ ops : List (Op engine), Runs.EachState (step json home) HitsWhole init ops := by
  intro h
  have hend : HitsWhole (runs json home tornOverwrite) :=
    (Runs.eachState_iff (step json home)).1 (h tornOverwrite) _ (List.prefix_refl _)
  have hhits : ((runs json home tornOverwrite).handle.map fun t =>
      t.queryFiltered [5] 1 fun record => record.shareable) =
        some (.ok [⟨⟨1⟩, 0, [1], some [5]⟩]) := by
    decide +kernel
  -- no insert of the run carried this vector together with this payload
  have hnone : ∀ m ∈ (runs json home tornOverwrite).history,
      m ∈ [.inserted original, .inserted overwrite] ∨ ∃ w ∈ written [m], m = .wrote w := by
    decide +kernel
  obtain ⟨t, ht, hquery⟩ := Option.map_eq_some_iff.1 hhits
  obtain ⟨r, hr, -, hvec, hpayload, -, -⟩ := hend t ht _ _ _ _ hquery _ (List.mem_singleton_self _)
  rcases hnone _ hr with hins | ⟨w, -, hw⟩
  · simp only [List.mem_cons, Mark.inserted.injEq, List.not_mem_nil, or_false] at hins
    rcases hins with rfl | rfl
    · simp [original] at hvec
    · simp [overwrite] at hpayload
  · simp at hw

end TornOverwrite

end Session

end SkegRigging
