import SkegRigging.Ingest.Updates

/-!
# When watch mode ingests a path

The attempts of a watch run are the grants of a debouncer on its accepted visits (`attempted_eq`).
So the attempts of one path are 800 ms apart, an event that comes 800 ms after them leads to one,
and they are determined by the events of that path: the other paths, the embedder, the writer and
what becomes of the earlier attempts have no part in it.
-/

set_option autoImplicit false

namespace SkegRigging.Ingest.Watch

open Runs

variable {M W F Err : Type} {E : Embed M F} {T : TenantWrite W F Err} {root : PathBuf}

/-- The accepted visits of a run to one path. -/
def ownEvents (opts : IngestOptions) (path : PathBuf) (ds : List Delivery) : List Visit :=
  ((ds.flatMap visits).filter fun v => v.accepted opts).filter fun v => v.path = path

/-- The attempts of a run on one path. -/
def attemptsOn (E : Embed M F) (T : TenantWrite W F Err) (root : PathBuf) (s : Watch M W)
    (path : PathBuf) (ds : List Delivery) : List Visit :=
  (attempted E T root s (ds.flatMap visits)).filter fun v => v.path = path

/-- The attempts on a path are the grants of a debouncer on its own events. -/
theorem attemptsOn_eq (opts : IngestOptions) (embedder : M) (writer : W) (path : PathBuf)
    (ds : List Delivery) :
    attemptsOn E T root (start opts embedder writer) path ds =
      Debounce.granted Visit.path Visit.now debounce (fun _ => none) (ownEvents opts path ds) := by
  rw [attemptsOn, attempted_eq]
  exact Debounce.granted_filter rfl _

/-- Which files are ingested does not change during a run. -/
theorem run_accepted (s : Watch M W) (vs : List Visit) (u : Visit) :
    u.accepted (run (visit E T root) s vs).opts = u.accepted s.opts := by
  induction vs generalizing s with
  | nil => rfl
  | cons v vs ih => rw [run_cons, ih, visit_accepted]

/-- An accepted visit after the visits `pre` is attempted exactly when the attempts on its path so
far are at least 800 ms old. -/
theorem attempts_iff {opts : IngestOptions} {embedder : M} {writer : W} {pre : List Visit}
    {u : Visit} (hu : u.accepted opts = true)
    (hclock : ((pre ++ [u]).filter fun v => v.accepted opts).Pairwise fun a b => a.now ≤ b.now) :
    (run (visit E T root) (start opts embedder writer) pre).attempts u = true ↔
      ∀ a ∈ attempted E T root (start opts embedder writer) pre, a.path = u.path →
        a.now + debounce ≤ u.now := by
  rw [List.filter_append, List.pairwise_append] at hclock
  obtain ⟨hpre, -, hlast⟩ := hclock
  have haccepted : u.accepted (run (visit E T root) (start opts embedder writer) pre).opts = true :=
    (run_accepted _ pre u).trans hu
  have hblocked : (run (visit E T root) (start opts embedder writer) pre).debounced u = true ↔
      ∃ a ∈ attempted E T root (start opts embedder writer) pre,
        a.path = u.path ∧ u.now - a.now < debounce := by
    rw [attempted_eq, Watch.debounced, run_lastSeen]
    exact Debounce.blocked_iff_granted (Debounce.clocked_now hpre)
  have hbefore : ∀ a ∈ attempted E T root (start opts embedder writer) pre, a.now ≤ u.now := by
    intro a ha
    rw [attempted_eq] at ha
    exact hlast a (Debounce.mem_of_granted ha) u (by simp [hu])
  rw [attempts, haccepted, Bool.true_and, Bool.not_eq_true', ← Bool.not_eq_true, hblocked]
  constructor
  · intro hfree a ha hpath
    have hle := hbefore a ha
    by_contra hrecent
    exact hfree ⟨a, ha, hpath, by omega⟩
  · rintro hold ⟨a, ha, hpath, hrecent⟩
    have hlate := hold a ha hpath
    omega

variable (E T root)

/-- The debounce law of a watch run whose accepted visits are handled in the order of the clock.
Attempts on one path are at least 800 ms apart. An accepted event is attempted exactly when the
attempts on its path before it are that old. And in any other run, with an embedder, a writer and
options of its own, where the events of a path correspond to those of this run, path for path and
time for time, the attempts on the path correspond as well. -/
theorem attempts_law (opts : IngestOptions) (embedder : M) (writer : W) (ds : List Delivery)
    (hclock : ((ds.flatMap visits).filter fun v => v.accepted opts).Pairwise
      fun a b => a.now ≤ b.now) :
    ((attempted E T root (start opts embedder writer) (ds.flatMap visits)).Pairwise
        fun a b => a.path = b.path → a.now + debounce ≤ b.now) ∧
      (∀ pre u post, ds.flatMap visits = pre ++ u :: post → u.accepted opts = true →
        ((run (visit E T root) (start opts embedder writer) pre).attempts u = true ↔
          ∀ a ∈ attempted E T root (start opts embedder writer) pre, a.path = u.path →
            a.now + debounce ≤ u.now)) ∧
      ∀ {M' W' F' Err' : Type} (E' : Embed M' F') (T' : TenantWrite W' F' Err') (root' : PathBuf)
        (opts' : IngestOptions) (embedder' : M') (writer' : W') (ds' : List Delivery)
        (path : PathBuf) (R : Visit → Visit → Prop),
        (∀ a b, R a b → a.path = b.path ∧ a.now = b.now) →
        List.Forall₂ R (ownEvents opts path ds) (ownEvents opts' path ds') →
        List.Forall₂ R (attemptsOn E T root (start opts embedder writer) path ds)
          (attemptsOn E' T' root' (start opts' embedder' writer') path ds') := by
  refine ⟨?_, ?_, ?_⟩
  · rw [attempted_eq]
    exact Debounce.granted_spaced (Debounce.clocked_now hclock) _
  · intro pre u post hsplit hu
    apply attempts_iff hu
    have hcut : pre ++ u :: post = (pre ++ [u]) ++ post := by simp
    rw [hsplit, hcut, List.filter_append] at hclock
    exact (List.pairwise_append.1 hclock).1
  · intro M' W' F' Err' E' T' root' opts' embedder' writer' ds' path R hR hown
    rw [attemptsOn_eq, attemptsOn_eq]
    exact Debounce.granted_forall₂ hR hown _

section Example

open Reference

/-- Two files saved in turn, each saved again: `a.md` after half a second, `b.md` after one. -/
def savedInTurn : List Delivery :=
  [save "a.md" 0 5 (.ok "one\n"), save "b.md" 100 105 (.ok "two\n"),
    save "a.md" 500 505 (.ok "one, again\n"), save "b.md" 1100 1105 (.ok "two, again\n")]

/-- The same saves of `b.md`, alone, and with a file that cannot be read. -/
def savedAlone : List Delivery :=
  [save "b.md" 0 105 (.error ⟨.invalidData, "stream did not contain valid UTF-8"⟩),
    save "b.md" 0 1105 (.ok "two, again\n")]

theorem attempts_law_savedInTurn :
    (∃ u post, savedInTurn.flatMap visits = [] ++ u :: post ∧
        (run (visit scripted vaultWriter notes) (start markdown [] vault) []).attempts u = true) ∧
      List.Forall₂ (fun a b => a.path = b.path ∧ a.now = b.now)
        (attemptsOn scripted vaultWriter notes (start markdown [] vault) (notes.join "b.md")
          savedInTurn)
        (attemptsOn scripted vaultWriter notes (start markdown [true] vault) (notes.join "b.md")
          savedAlone) := by
  have hclock : ((savedInTurn.flatMap visits).filter fun v => v.accepted markdown).Pairwise
      fun a b => a.now ≤ b.now := by decide +kernel
  obtain ⟨-, hattempts, hown⟩ :=
    attempts_law scripted vaultWriter notes markdown [] vault savedInTurn hclock
  refine ⟨⟨_, _, rfl, (hattempts [] _ _ rfl (by decide +kernel)).2 (by simp [attempted])⟩, ?_⟩
  apply hown scripted vaultWriter notes markdown [true] vault savedAlone (notes.join "b.md")
    (fun a b => a.path = b.path ∧ a.now = b.now) (fun _ _ h => h)
  decide +kernel

end Example

end SkegRigging.Ingest.Watch
