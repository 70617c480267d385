import Mathlib.Data.Set.Finite.Lattice
import Mathlib.Data.Set.Finite.List

/-!
# Pumping

A run through finitely many states comes back to one of them, and what lies between the two visits
can be repeated. When the word read so far ends at both visits in the same `z`, then every factor of
the pumped words that is no longer than `z` is a factor of the word with a single repetition
(`infix_power`): a search for short factors cannot tell how often the loop was taken. In a long word
there is such a loop for every length of `z` (`exists_loopCut`).
-/

set_option autoImplicit false

namespace SkegRigging.Pumping

universe u v

variable {α : Type u} {β : Type v} {x y z e : List α}

/-- A word, `k` times. -/
def power (y : List α) (k : Nat) : List α := (List.replicate k y).flatten

@[simp] theorem power_zero (y : List α) : power y 0 = [] := rfl

theorem power_succ (y : List α) (k : Nat) : power y (k + 1) = power y k ++ y := by
  rw [power, List.replicate_succ', List.flatten_append, List.flatten_singleton]
  rfl

theorem length_power (y : List α) (k : Nat) : (power y k).length = k * y.length := by
  rw [power, List.length_flatten, List.map_replicate, List.sum_replicate_nat]

theorem flatMap_power (f : α → List β) (y : List α) (k : Nat) :
    (power y k).flatMap f = power (y.flatMap f) k := by
  induction k with
  | zero => rfl
  | succ k ih => rw [power_succ, List.flatMap_append, ih, power_succ]

/-- A common end of `x` and `x ++ y` stays the end of every pumped word. -/
theorem suffix_power (hx : z <:+ x) (hy : z <:+ x ++ y) (k : Nat) : z <:+ x ++ power y k := by
  induction k with
  | zero =>
    rw [power_zero, List.append_nil]
    exact hx
  | succ k ih =>
    -- `z` ends `z ++ y`, so it ends whatever ends in `z` and is continued by `y`
    have hloop : z <:+ z ++ y := by
      obtain ⟨rest, rfl⟩ := hx
      rw [List.append_assoc] at hy
      apply List.suffix_of_suffix_length_le hy (List.suffix_append _ _)
      rw [List.length_append]
      exact Nat.le_add_right _ _
    obtain ⟨rest, hrest⟩ := ih
    rw [power_succ, ← List.append_assoc, ← hrest, List.append_assoc]
    exact hloop.trans (List.suffix_append _ _)

/-- A short factor of a pumped word is a factor of the word with one repetition. -/
theorem infix_power (hx : z <:+ x) (hy : z <:+ x ++ y) (he : e.length ≤ z.length) {k : Nat}
    (h : e <:+: x ++ power y k) : e <:+: x ++ y := by
  induction k with
  | zero =>
    rw [power_zero, List.append_nil] at h
    exact h.trans List.infix_append_left
  | succ k ih =>
    rw [power_succ, ← List.append_assoc, List.infix_append_iff] at h
    rcases h with h | h | ⟨front, back, rfl, hfront, hback⟩
    · exact ih h
    · exact h.trans List.infix_append_right
    · -- the part before the last repetition lies in `z`
      have hz : front <:+ z := by
        apply List.suffix_of_suffix_length_le hfront (suffix_power hx hy k)
        rw [List.length_append] at he
        omega
      obtain ⟨before, rfl⟩ := hz
      obtain ⟨rest, rfl⟩ := hx
      obtain ⟨after, rfl⟩ := hback
      exact ⟨rest ++ before, after, by simp⟩

/-- There are finitely many words of one length over a finite alphabet. -/
theorem finite_words {s : Set α} (hs : s.Finite) (n : Nat) :
    {l : List α | l.length = n ∧ ∀ a ∈ l, a ∈ s}.Finite := by
  have hletters : Finite s := hs
  apply ((List.finite_length_eq s n).image (List.map Subtype.val)).subset
  rintro l ⟨hlen, hmem⟩
  lift l to List s using hmem
  rw [List.length_map] at hlen
  exact ⟨l, hlen, rfl⟩

/-- Among enough visits to finitely many states, two are to the same one. -/
theorem exists_repeat {t : Set β} (ht : t.Finite) :
    ∃ bound, ∀ f : Nat → β, (∀ i ≤ bound, f i ∈ t) → ∃ i j, i < j ∧ j ≤ bound ∧ f i = f j := by
  refine ⟨ht.toFinset.card, fun f hf => ?_⟩
  have hcard : ht.toFinset.card < (Finset.range (ht.toFinset.card + 1)).card := by
    rw [Finset.card_range]
    omega
  obtain ⟨i, hi, j, hj, hne, heq⟩ := Finset.exists_ne_map_eq_of_card_lt_of_maps_to hcard
    (f := f) fun i hi => ht.mem_toFinset.2 (hf i (Nat.lt_succ_iff.1 (Finset.mem_range.1 hi)))
  rw [Finset.mem_range] at hi hj
  rcases Nat.lt_or_gt_of_ne hne with hlt | hlt
  · exact ⟨i, j, hlt, by omega, heq⟩
  · exact ⟨j, i, hlt, by omega, heq.symm⟩

/-- A word that goes round `loop`: the state before the loop and after it is the same, and the word
read so far ends in the same `last` both times. -/
structure LoopCut (state : List α → β) (w first again last loop : List α) : Prop where
  first_ne : first ≠ []
  again_ne : again ≠ []
  loop_ne : loop ≠ []
  same : state (first ++ last) = state (first ++ last ++ loop)
  ends : first ++ last ++ loop = again ++ last
  begins : first ++ last ++ loop <+: w

/-- What lies between two positions of a word. -/
theorem take_append_drop_take {w : List α} {k l : Nat} (h : k ≤ l) :
    w.take k ++ (w.take l).drop k = w.take l := by
  have hsplit := List.take_append_drop k (w.take l)
  rwa [List.take_take, Nat.min_eq_left h] at hsplit

/-- Two positions with the same state, after the same `reach` letters, cut out a loop. -/
theorem loopCut_of_repeat {state : List α → β} {w : List α} {reach i j : Nat} (hij : i < j)
    (hlen : j + reach + 1 ≤ w.length)
    (hstate : state (w.take (i + reach + 1)) = state (w.take (j + reach + 1)))
    (hlast : (w.take (i + reach + 1)).drop (i + 1) = (w.take (j + reach + 1)).drop (j + 1)) :
    LoopCut state w (w.take (i + 1)) (w.take (j + 1)) ((w.take (i + reach + 1)).drop (i + 1))
      ((w.take (j + reach + 1)).drop (i + reach + 1)) := by
  have hnonempty : ∀ k, w.take (k + 1) ≠ [] := by
    intro k hnil
    rw [List.take_eq_nil_iff, ← List.length_eq_zero_iff] at hnil
    omega
  have hfirst : w.take (i + 1) ++ (w.take (i + reach + 1)).drop (i + 1) = w.take (i + reach + 1) :=
    take_append_drop_take (by omega)
  have hround : w.take (i + reach + 1) ++ (w.take (j + reach + 1)).drop (i + reach + 1) =
      w.take (j + reach + 1) := take_append_drop_take (by omega)
  refine ⟨hnonempty i, hnonempty j, ?_, ?_, ?_, ?_⟩
  · intro hnil
    have hshort := congrArg List.length hnil
    rw [List.length_drop, List.length_take, List.length_nil] at hshort
    omega
  · rw [hfirst, hround, hstate]
  · rw [hfirst, hround, hlast, take_append_drop_take (by omega)]
  · rw [hfirst, hround]
    exact List.take_prefix _ _

/-- Over finitely many letters and states, a long word goes round a loop that ends as it was
entered, for the last `reach` letters. -/
theorem exists_loopCut [Finite β] {s : Set α} (hs : s.Finite) (reach : Nat) :
    ∃ bound, ∀ (w : List α) (state : List α → β), bound ≤ w.length → (∀ a ∈ w, a ∈ s) →
      ∃ first again last loop, last.length = reach ∧ LoopCut state w first again last loop := by
  have hvisits : (Set.univ ×ˢ {l : List α | l.length = reach ∧ ∀ a ∈ l, a ∈ s}).Finite :=
    (Set.finite_univ : (Set.univ : Set β).Finite).prod (finite_words hs reach)
  obtain ⟨bound, hbound⟩ := exists_repeat hvisits
  refine ⟨bound + reach + 1, fun w state hlen hletters => ?_⟩
  have hlast : ∀ i ≤ bound, ((w.take (i + reach + 1)).drop (i + 1)).length = reach := by
    intro i hi
    rw [List.length_drop, List.length_take]
    omega
  obtain ⟨i, j, hij, hj, heq⟩ := hbound
    (fun i => (state (w.take (i + reach + 1)), (w.take (i + reach + 1)).drop (i + 1))) (by
      intro i hi
      refine ⟨Set.mem_univ _, hlast i hi, fun a ha => ?_⟩
      exact hletters a (List.mem_of_mem_take (List.mem_of_mem_drop ha)))
  rw [Prod.mk.injEq] at heq
  exact ⟨_, _, _, _, hlast i (by omega), loopCut_of_repeat hij (by omega) heq.1 heq.2⟩

end SkegRigging.Pumping
