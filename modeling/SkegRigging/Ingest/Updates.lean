import SkegRigging.Library.Debounce
import SkegRigging.Reference.Ingest

/-!
# When watch mode loses an update

The loop debounces each path on the leading edge: it records the time of an attempt before the
attempt and drops the events of the next 800 ms, also when the attempt found a half-written file and
failed. An event that happens inside this window is made up for only by a further event of the path
after it; when there is none, the last content of the file is never ingested
(`noUpdateLost_halfWritten`). `noUpdateLost_iff` is the exact condition, for every run.

The attempts of a run are the grants of a debouncer on its accepted visits (`attempted_eq`).
-/

set_option autoImplicit false

namespace SkegRigging.Ingest.Watch

open Runs

variable {M W F Err : Type} (E : Embed M F) (T : TenantWrite W F Err) (root : PathBuf)

/-- The visits of a run on which `ingest_file` is called. It gets the content of the visit. -/
def attempted (s : Watch M W) (vs : List Visit) : List Visit :=
  ((trace (visit E T root) s vs).filter fun x => x.1.attempts x.2).map Prod.snd

/-- Every `Create` or `Modify` event on an accepted regular file is followed by an attempt on the
path that starts at or after the time of the event. -/
def NoUpdateLost (s : Watch M W) (ds : List Delivery) : Prop :=
  ∀ u ∈ ds.flatMap visits, u.accepted s.opts = true →
    ∃ a ∈ attempted E T root s (ds.flatMap visits), a.path = u.path ∧ u.happened ≤ a.now

variable {E T root}

theorem visit_lastSeen_eq (s : Watch M W) (v : Visit) :
    (s.visit E T root v).lastSeen =
      if v.accepted s.opts then Debounce.step Visit.path Visit.now debounce s.lastSeen v
      else s.lastSeen := by
  cases hv : v.accepted s.opts with
  | false => rw [visit_skipped (by rw [attempts, hv, Bool.false_and]), if_neg (by simp)]
  | true =>
    rw [if_pos rfl]
    -- `debounced` is the debouncer's `blocked` at the type of paths
    cases hd : s.debounced v with
    | true =>
      rw [visit_skipped (by rw [attempts, hd, Bool.not_true, Bool.and_false])]
      exact (Debounce.step_blocked hd).symm
    | false =>
      rw [visit_lastSeen (by rw [attempts, hv, hd]; rfl)]
      exact (Debounce.step_granted hd).symm

/-- `last_seen` is what a debouncer remembers of the accepted visits. -/
theorem run_lastSeen (s : Watch M W) (vs : List Visit) :
    (run (visit E T root) s vs).lastSeen =
      run (Debounce.step Visit.path Visit.now debounce) s.lastSeen
        (vs.filter fun v => v.accepted s.opts) := by
  induction vs generalizing s with
  | nil => rfl
  | cons v vs ih =>
    rw [run_cons, ih, visit_lastSeen_eq, List.filter_cons]
    simp only [visit_accepted]
    cases v.accepted s.opts <;> rfl

/-- The attempts of a run are the grants of a debouncer on the accepted visits. -/
theorem attempted_eq (s : Watch M W) (vs : List Visit) :
    attempted E T root s vs =
      Debounce.granted Visit.path Visit.now debounce s.lastSeen
        (vs.filter fun v => v.accepted s.opts) := by
  induction vs generalizing s with
  | nil => rfl
  | cons v vs ih =>
    have hrest := ih (s.visit E T root v)
    rw [visit_lastSeen_eq] at hrest
    simp only [visit_accepted] at hrest
    rw [attempted] at hrest ⊢
    rw [trace_cons, List.filter_cons, List.filter_cons]
    cases hv : v.accepted s.opts with
    | false =>
      rw [hv, if_neg (by simp)] at hrest
      rw [if_neg (by simp [attempts, hv]), hrest, if_neg (by simp)]
    | true =>
      rw [hv, if_pos rfl] at hrest
      rw [if_pos rfl, Debounce.granted_cons, ← hrest]
      have hblocked : Debounce.blocked Visit.path Visit.now debounce s.lastSeen v = s.debounced v :=
        rfl
      rw [hblocked]
      cases hd : s.debounced v with
      | true => simp [attempts, hv, hd]
      | false => simp [attempts, hv, hd]

/-- An element of a filtered list cuts the list itself. -/
theorem exists_split_of_filter {α : Type} {p : α → Bool} {l pre post : List α} {u : α}
    (h : l.filter p = pre ++ u :: post) :
    ∃ pre' post', l = pre' ++ u :: post' ∧ pre'.filter p = pre ∧ p u = true ∧
      post'.filter p = post := by
  obtain ⟨l₁, l₂, rfl, hpre, hrest⟩ := List.filter_eq_append_iff.1 h
  obtain ⟨l₃, l₄, rfl, hl₃, hu, hpost⟩ := List.filter_eq_cons_iff.1 hrest
  have hnone : l₃.filter p = [] := by simpa using hl₃
  exact ⟨l₁ ++ l₃, l₄, by simp, by rw [List.filter_append, hpre, hnone, List.append_nil], hu, hpost⟩

/-- No update of a run is lost exactly when every event that is swallowed, because it falls within
800 ms after an attempt on its path that began before it, is followed by an event of the path that
is handled outside the window of that attempt. -/
theorem noUpdateLost_iff (opts : IngestOptions) (embedder : M) (writer : W) (ds : List Delivery)
    (hclock : Debounce.Clocked Visit.now Visit.happened
      ((ds.flatMap visits).filter fun v => v.accepted opts)) :
    NoUpdateLost E T root (start opts embedder writer) ds ↔
      ∀ pre u post prev, ds.flatMap visits = pre ++ u :: post → u.accepted opts = true →
        Debounce.Swallowed Visit.path Visit.now debounce Visit.happened
          (run (visit E T root) (start opts embedder writer) pre).lastSeen u prev →
        ∃ v ∈ post, v.accepted opts = true ∧ v.path = u.path ∧ debounce ≤ v.now - prev := by
  -- the statement about attempts is the one about grants of accepted visits
  have hserved : NoUpdateLost E T root (start opts embedder writer) ds ↔
      Debounce.Served Visit.path Visit.now debounce Visit.happened (fun _ => none)
        ((ds.flatMap visits).filter fun v => v.accepted opts) := by
    rw [NoUpdateLost, attempted_eq, Debounce.Served]
    simp only [List.mem_filter, and_imp]
    rfl
  have hseen : ∀ pre, (run (visit E T root) (start opts embedder writer) pre).lastSeen =
      run (Debounce.step Visit.path Visit.now debounce) (fun _ => none)
        (pre.filter fun v => v.accepted opts) := run_lastSeen _
  rw [hserved, Debounce.served_iff hclock]
  constructor
  -- a cut of the visits gives a cut of the accepted ones, and the other way round below
  · intro h pre u post prev hsplit hu hswallowed
    rw [hseen] at hswallowed
    obtain ⟨v, hv, hpath, hlate⟩ := h (pre.filter fun v => v.accepted opts) u
      (post.filter fun v => v.accepted opts) prev (by rw [hsplit]; simp [hu]) hswallowed
    obtain ⟨hmem, haccepted⟩ := List.mem_filter.1 hv
    exact ⟨v, hmem, haccepted, hpath, hlate⟩
  · intro h pre u post prev hsplit hswallowed
    obtain ⟨pre', post', hds, rfl, hu, rfl⟩ := exists_split_of_filter hsplit
    rw [← hseen] at hswallowed
    obtain ⟨v, hv, haccepted, hpath, hlate⟩ := h pre' u post' prev hds hu hswallowed
    exact ⟨v, List.mem_filter.2 ⟨hv, haccepted⟩, hpath, hlate⟩

/-- When no update is lost and the file no longer changes after an event, its last content has been
offered to `ingest_file`. -/
theorem NoUpdateLost.lastContent {s : Watch M W} {ds : List Delivery}
    (h : NoUpdateLost E T root s ds) {u : Visit} (hu : u ∈ ds.flatMap visits)
    (hacc : u.accepted s.opts = true) {content : Except IoError Text}
    (hlast : ∀ v ∈ ds.flatMap visits, v.path = u.path → u.happened ≤ v.now → v.content = content) :
    ∃ a ∈ attempted E T root s (ds.flatMap visits), a.path = u.path ∧ a.content = content := by
  obtain ⟨a, ha, hpath, hle⟩ := h u hu hacc
  have hmem : a ∈ ds.flatMap visits := by
    rw [attempted_eq] at ha
    exact (List.mem_filter.1 (Debounce.mem_of_granted ha)).1
  exact ⟨a, ha, hpath, hlast a hmem hpath hle⟩

section Example

open Reference

/-- The editor creates the file and finishes it a tenth of a second later; the first event finds it
half written. -/
def halfWritten : List Delivery :=
  [save "a.md" 0 5 (.error ⟨.invalidData, "stream did not contain valid UTF-8"⟩),
    save "a.md" 100 105 (.ok "done\n")]

/-- The first attempt fails, the second event is dropped, and the finished file is never read. -/
theorem noUpdateLost_halfWritten :
    Debounce.Clocked Visit.now Visit.happened
        ((halfWritten.flatMap visits).filter fun v => v.accepted markdown) ∧
      ¬NoUpdateLost scripted vaultWriter notes (start markdown [] vault) halfWritten := by
  refine ⟨⟨by decide +kernel, by decide +kernel⟩, ?_⟩
  rw [NoUpdateLost]
  decide +kernel

/-- The same saves, with one more a second later. -/
def savedAgain : List Delivery := halfWritten ++ [save "a.md" 1100 1105 (.ok "done\n")]

theorem noUpdateLost_iff_example :
    NoUpdateLost scripted vaultWriter notes (start markdown [] vault) savedAgain ∧
      ∀ pre u post prev, savedAgain.flatMap visits = pre ++ u :: post →
        u.accepted markdown = true →
        Debounce.Swallowed Visit.path Visit.now debounce Visit.happened
          (run (visit scripted vaultWriter notes) (start markdown [] vault) pre).lastSeen u prev →
        ∃ v ∈ post, v.accepted markdown = true ∧ v.path = u.path ∧ debounce ≤ v.now - prev := by
  have hkept : NoUpdateLost scripted vaultWriter notes (start markdown [] vault) savedAgain := by
    rw [NoUpdateLost]
    decide +kernel
  have hclock : Debounce.Clocked Visit.now Visit.happened
      ((savedAgain.flatMap visits).filter fun v => v.accepted markdown) :=
    ⟨by decide +kernel, by decide +kernel⟩
  exact ⟨hkept, (noUpdateLost_iff markdown [] vault savedAgain hclock).1 hkept⟩

end Example

end SkegRigging.Ingest.Watch
