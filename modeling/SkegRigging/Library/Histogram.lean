import Mathlib.Algebra.BigOperators.Group.Finset.Basic
import Mathlib.Algebra.Order.Ring.Nat
import Mathlib.Logic.Function.Iterate

/-!
# Histograms

A list of cells, and a loop that raises one cell per index. Wherever the indices are in bounds, a
cell ends up raised as often as its index occurs (`tally_replicate`), whatever is in the cells and
whatever raising one does. So the result does not depend on the order of the indices
(`counts_perm`), and it adds up over a concatenation (`counts_append`).
-/

set_option autoImplicit false

namespace SkegRigging.Histogram

universe u

variable {A : Type u} (raise : A → A)

/-- Raise the cell `i`, if there is one. -/
def raiseAt (cells : List A) (i : Nat) : Option (List A) :=
  match cells[i]? with
  | some a => some (cells.set i (raise a))
  | none => none

/-- Raise the cells of the indices, one after the other. -/
def tally (cells : List A) : List Nat → Option (List A)
  | [] => some cells
  | i :: is =>
    match raiseAt raise cells i with
    | some cells => tally cells is
    | none => none

/-- How often each index below `n` occurs. -/
def counts (n : Nat) (is : List Nat) : List Nat := (List.range n).map fun i => is.count i

variable {raise} {n i : Nat} {is is' : List Nat}

@[simp] theorem length_counts : (counts n is).length = n := by simp [counts]

theorem counts_append :
    counts n (is ++ is') = List.zipWith (· + ·) (counts n is) (counts n is') := by
  rw [counts, counts, counts, List.zipWith_map, List.zipWith_self]
  simp only [List.count_append]

theorem counts_perm (h : is.Perm is') : counts n is = counts n is' := by
  rw [counts, counts]
  simp only [h.count_eq]

/-- Every occurrence of an index is counted once. -/
theorem sum_counts (h : ∀ i ∈ is, i < n) : (counts n is).sum = is.length := by
  have hsum : ∑ i ∈ Finset.range n, (is : Multiset Nat).count i = (is : Multiset Nat).card := by
    apply Multiset.sum_count_eq_card
    intro i hi
    exact Finset.mem_range.2 (h i hi)
  simp only [Multiset.coe_card, Multiset.coe_count] at hsum
  rw [← hsum]
  rfl

/-- In bounds, the cell is raised. -/
theorem raiseAt_of_lt {cells : List A} (h : i < cells.length) :
    raiseAt raise cells i = some (cells.set i (raise cells[i])) := by
  rw [raiseAt, List.getElem?_eq_getElem h]

/-- Each cell is raised as often as its index occurs. -/
theorem tally_eq {cells : List A} (h : ∀ i ∈ is, i < cells.length) :
    tally raise cells is = some (cells.mapIdx fun i a => raise^[is.count i] a) := by
  induction is generalizing cells with
  | nil =>
    have hkeep : cells.mapIdx (fun i a => raise^[([] : List Nat).count i] a) = cells := by
      apply List.mapIdx_eq_iff.2
      simp
    rw [tally, hkeep]
  | cons i is ih =>
    obtain ⟨hi, his⟩ := List.forall_mem_cons.1 h
    rw [tally, raiseAt_of_lt hi]
    dsimp only
    rw [ih fun j hj => by simpa using his j hj]
    apply congrArg some
    apply List.ext_getElem
    · simp
    · intro j hj hj'
      rw [List.getElem_mapIdx, List.getElem_mapIdx, List.getElem_set]
      by_cases hij : i = j
      · subst hij
        rw [if_pos rfl, List.count_cons_self, Function.iterate_succ_apply]
      · rw [if_neg hij, List.count_cons_of_ne hij]

/-- Cells that start alike show the counts. -/
theorem tally_replicate {a : A} (h : ∀ i ∈ is, i < n) :
    tally raise (List.replicate n a) is = some ((counts n is).map fun k => raise^[k] a) := by
  rw [tally_eq (by simpa using h), counts, List.map_map]
  apply congrArg some
  apply List.ext_getElem
  · simp
  · intro j hj hj'
    simp

end SkegRigging.Histogram
