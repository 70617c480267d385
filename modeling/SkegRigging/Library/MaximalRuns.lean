import Mathlib.Data.List.Basic

/-!
# Maximal runs of a predicate in a list

A maximal run is a nonempty stretch of elements that satisfy `p`, with no such element right before
or right after it. A scan from the left keeps the open run, the elements that satisfy `p` at the end
of what it has read, and closes it at the next element that does not. A run is closed once something
follows it: it stays a maximal run whatever is read later (`ClosedRun.concat`), and the closed runs
after one more element are those before it and, at an element outside `p`, the run that was open
(`closedRun_concat_open`, `closedRun_concat_stop`).
-/

set_option autoImplicit false

namespace SkegRigging.MaximalRuns

universe u

variable {α : Type u} {p : α → Bool} {xs pre run post : List α} {x : α}

/-- The stretch `run` after `pre` is the longest possible at the end of `pre ++ run`. -/
structure OpenRun (p : α → Bool) (pre run : List α) : Prop where
  inside : ∀ x ∈ run, p x = true
  before : ∀ x, pre.getLast? = some x → p x = false

/-- The stretch `run` of `xs`, which `pre` precedes, is a maximal run. -/
structure MaximalRun (p : α → Bool) (xs pre run : List α) : Prop where
  nonempty : run ≠ []
  stretch : OpenRun p pre run
  after : ∃ post, xs = pre ++ run ++ post ∧ ∀ x, post.head? = some x → p x = false

/-- A maximal run that ends before the list does. -/
structure ClosedRun (p : α → Bool) (xs pre run : List α) : Prop where
  nonempty : run ≠ []
  stretch : OpenRun p pre run
  after : ∃ x post, xs = pre ++ run ++ x :: post ∧ p x = false

theorem not_closedRun_nil : ¬ ClosedRun p [] pre run := by
  rintro ⟨-, -, x, post, hxs, -⟩
  simp at hxs

/-- A list ends in one open run. -/
theorem OpenRun.unique {pre' run' : List α} (h : OpenRun p pre run) (h' : OpenRun p pre' run')
    (heq : pre ++ run = pre' ++ run') : pre = pre' ∧ run = run' := by
  rcases List.append_eq_append_iff.1 heq with ⟨mid, hpre, hrun⟩ | ⟨mid, hpre, hrun⟩
  · -- the stretch between the two would end outside `p` and lie in the first run
    rcases List.eq_nil_or_concat mid with rfl | ⟨mid, y, rfl⟩
    · simp_all
    · have hlast : p y = false := h'.before y (by simp [hpre])
      have hmem : p y = true := h.inside y (by simp [hrun])
      rw [hlast] at hmem
      exact absurd hmem Bool.false_ne_true
  · rcases List.eq_nil_or_concat mid with rfl | ⟨mid, y, rfl⟩
    · simp_all
    · have hlast : p y = false := h.before y (by simp [hpre])
      have hmem : p y = true := h'.inside y (by simp [hrun])
      rw [hlast] at hmem
      exact absurd hmem Bool.false_ne_true

/-- One more element of `p` belongs to the open run. -/
theorem OpenRun.concat (h : OpenRun p pre run) (hx : p x = true) : OpenRun p pre (run ++ [x]) := by
  refine ⟨fun y hy => ?_, h.before⟩
  rcases List.mem_append.1 hy with hy | hy
  · exact h.inside y hy
  · rw [List.mem_singleton.1 hy, hx]

/-- After an element outside `p` the open run is empty. -/
theorem OpenRun.stop (xs : List α) (hx : p x = false) : OpenRun p (xs ++ [x]) [] := by
  refine ⟨by simp, fun y hy => ?_⟩
  rw [List.getLast?_concat, Option.some.injEq] at hy
  rw [← hy, hx]

theorem ClosedRun.concat (h : ClosedRun p xs pre run) (x : α) :
    ClosedRun p (xs ++ [x]) pre run := by
  obtain ⟨y, post, rfl, hy⟩ := h.after
  exact ⟨h.nonempty, h.stretch, y, post ++ [x], by simp, hy⟩

/-- A closed run ends before the last element, or the last element has just closed it. -/
theorem ClosedRun.of_concat (h : ClosedRun p (xs ++ [x]) pre run) :
    ClosedRun p xs pre run ∨ (xs = pre ++ run ∧ p x = false) := by
  obtain ⟨y, post, heq, hy⟩ := h.after
  rcases List.eq_nil_or_concat post with rfl | ⟨post, z, rfl⟩
  · obtain ⟨rfl, hlast⟩ := List.append_inj' heq rfl
    rw [List.cons.injEq] at hlast
    rw [← hlast.1] at hy
    exact Or.inr ⟨rfl, hy⟩
  · have heq' : xs ++ [x] = (pre ++ run ++ y :: post) ++ [z] := by rw [heq]; simp
    obtain ⟨hxs, -⟩ := List.append_inj' heq' rfl
    exact Or.inl ⟨h.nonempty, h.stretch, y, post, hxs, hy⟩

/-- An element of `p` closes no run. -/
theorem closedRun_concat_open (hx : p x = true) :
    ClosedRun p (xs ++ [x]) pre run ↔ ClosedRun p xs pre run := by
  refine ⟨fun h => ?_, fun h => h.concat x⟩
  rcases h.of_concat with h | ⟨-, hstop⟩
  · exact h
  · rw [hx] at hstop
    exact absurd hstop Bool.false_ne_true.symm

/-- An element outside `p` closes the open run, if that is not empty. -/
theorem closedRun_concat_stop {first last : List α} (hopen : OpenRun p first last)
    (hx : p x = false) :
    ClosedRun p (first ++ last ++ [x]) pre run ↔
      ClosedRun p (first ++ last) pre run ∨ (last ≠ [] ∧ pre = first ∧ run = last) := by
  constructor
  · intro h
    rcases h.of_concat with h' | ⟨heq, -⟩
    · exact Or.inl h'
    · obtain ⟨rfl, rfl⟩ := hopen.unique h.stretch heq
      exact Or.inr ⟨h.nonempty, rfl, rfl⟩
  · rintro (h | ⟨hne, rfl, rfl⟩)
    · exact h.concat x
    · exact ⟨hne, hopen, x, [], rfl, hx⟩

/-- The maximal runs are the closed ones and the open run at the end, if that is not empty. -/
theorem maximalRun_iff {first last : List α} (hopen : OpenRun p first last) :
    MaximalRun p (first ++ last) pre run ↔
      ClosedRun p (first ++ last) pre run ∨ (last ≠ [] ∧ pre = first ∧ run = last) := by
  constructor
  · rintro ⟨hne, hrun, post, heq, hafter⟩
    cases post with
    | nil =>
      rw [List.append_nil] at heq
      obtain ⟨rfl, rfl⟩ := hopen.unique hrun heq
      exact Or.inr ⟨hne, rfl, rfl⟩
    | cons y post => exact Or.inl ⟨hne, hrun, y, post, heq, hafter y rfl⟩
  · rintro (⟨hne, hrun, y, post, heq, hy⟩ | ⟨hne, rfl, rfl⟩)
    · refine ⟨hne, hrun, y :: post, heq, fun z hz => ?_⟩
      rw [List.head?_cons, Option.some.injEq] at hz
      rw [← hz, hy]
    · exact ⟨hne, hopen, [], by simp, by simp⟩

/-- A closed run does not reach into the open one. -/
theorem ClosedRun.length_le {first last : List α} (hopen : OpenRun p first last)
    (h : ClosedRun p (first ++ last) pre run) : pre.length + run.length ≤ first.length := by
  obtain ⟨y, post, heq, hy⟩ := h.after
  rcases List.append_eq_append_iff.1 heq with ⟨mid, hpre, hlast⟩ | ⟨mid, hpre, hlast⟩
  · -- otherwise the element that closes it would lie in the open run
    have hmem : p y = true := hopen.inside y (by simp [hlast])
    rw [hy] at hmem
    exact absurd hmem Bool.false_ne_true
  · have hlen := congrArg List.length hpre
    simp only [List.length_append] at hlen
    omega

end SkegRigging.MaximalRuns
