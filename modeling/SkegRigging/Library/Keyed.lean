import Mathlib.Data.List.Nodup
import Mathlib.Algebra.BigOperators.Group.List.Basic
import Mathlib.Algebra.Order.BigOperators.Group.List
import Mathlib.Algebra.Order.Ring.Nat

/-!
# Keyed record lists

A list of records read as a map from keys: `find` returns the first record of a key, `upsert`
replaces the first record of a key or appends, `remove` drops every record of a key. The order of
the list is the order in which keys were first inserted.

The library states how the three operations compose (`find_upsert`, `find_remove`), that distinct
keys stay distinct (`nodup_upsert`, `nodup_remove`), and how a sum of record weights moves
(`sum_upsert_of_find_none`, `sum_upsert_of_find`, `sum_remove_le`).
-/

set_option autoImplicit false

namespace SkegRigging.Keyed

universe u v

variable {K : Type u} {R : Type v} [DecidableEq K] (key : R → K)

/-- The first record with key `k`. -/
def find (k : K) (rs : List R) : Option R := rs.find? fun r => key r = k

/-- Replace the first record with the key of `r`, or append `r`. -/
def upsert (r : R) : List R → List R
  | [] => [r]
  | x :: xs => if key x = key r then r :: xs else x :: upsert r xs

/-- Keep the records whose key is not `k`. -/
def remove (k : K) (rs : List R) : List R := rs.filter fun r => key r ≠ k

@[simp] theorem find_nil (k : K) : find key k ([] : List R) = none := rfl

theorem find_cons (k : K) (x : R) (xs : List R) :
    find key k (x :: xs) = if key x = k then some x else find key k xs := by
  by_cases h : key x = k
  · simp [find, h]
  · simp [find, h]

theorem mem_of_find {k : K} {rs : List R} {r : R} (h : find key k rs = some r) : r ∈ rs :=
  List.mem_of_find?_eq_some h

theorem key_of_find {k : K} {rs : List R} {r : R} (h : find key k rs = some r) : key r = k := by
  simpa using List.find?_some h

theorem find_eq_none_iff {k : K} {rs : List R} : find key k rs = none ↔ k ∉ rs.map key := by
  simp [find]

theorem find_isSome_iff {k : K} {rs : List R} : (find key k rs).isSome ↔ k ∈ rs.map key := by
  simp [find]

theorem any_eq_find_isSome (k : K) (rs : List R) :
    (rs.any fun r => decide (key r = k)) = (find key k rs).isSome := by
  rw [Bool.eq_iff_iff, find_isSome_iff]
  simp

/-- With distinct keys, every record is the one found under its key. -/
theorem find_of_mem {rs : List R} (hnd : (rs.map key).Nodup) {r : R} (h : r ∈ rs) :
    find key (key r) rs = some r := by
  induction rs with
  | nil => simp at h
  | cons x xs ih =>
    rw [List.map_cons, List.nodup_cons] at hnd
    rw [find_cons]
    rcases List.mem_cons.1 h with rfl | h
    · simp
    · have hne : key x ≠ key r := fun e => hnd.1 (e ▸ List.mem_map_of_mem h)
      rw [if_neg hne]
      exact ih hnd.2 h

/-! ## Replacing or appending -/

theorem find_upsert (k : K) (r : R) (rs : List R) :
    find key k (upsert key r rs) = if k = key r then some r else find key k rs := by
  induction rs with
  | nil =>
    by_cases h : key r = k
    · simp [upsert, find, h]
    · simp [upsert, find, h, Ne.symm h]
  | cons x xs ih =>
    rw [upsert]
    by_cases hx : key x = key r
    · rw [if_pos hx, find_cons, find_cons, hx]
      by_cases hk : key r = k
      · rw [if_pos hk, if_pos hk.symm]
      · rw [if_neg hk, if_neg (Ne.symm hk), if_neg hk]
    · rw [if_neg hx, find_cons, find_cons, ih]
      by_cases hk : k = key r
      · have hxk : key x ≠ k := fun e => hx (e.trans hk)
        rw [if_neg hxk]
        simp [hk]
      · simp [hk]

theorem mem_upsert_self (r : R) (rs : List R) : r ∈ upsert key r rs := by
  apply mem_of_find key
  rw [find_upsert, if_pos rfl]

theorem mem_upsert {x r : R} {rs : List R} (h : x ∈ upsert key r rs) : x = r ∨ x ∈ rs := by
  induction rs with
  | nil => exact Or.inl (by simpa [upsert] using h)
  | cons y ys ih =>
    rw [upsert] at h
    split at h
    · rcases List.mem_cons.1 h with h | h
      · exact Or.inl h
      · exact Or.inr (List.mem_cons_of_mem _ h)
    · rcases List.mem_cons.1 h with h | h
      · exact Or.inr (h ▸ List.mem_cons_self)
      · exact (ih h).imp_right (List.mem_cons_of_mem _)

/-- The keys after an upsert: the same list, with a new key appended. -/
theorem map_key_upsert (r : R) (rs : List R) :
    (upsert key r rs).map key =
      if key r ∈ rs.map key then rs.map key else rs.map key ++ [key r] := by
  induction rs with
  | nil => simp [upsert]
  | cons x xs ih =>
    rw [upsert]
    by_cases hx : key x = key r
    · rw [if_pos hx]
      simp [hx]
    · rw [if_neg hx, List.map_cons, ih]
      by_cases hm : key r ∈ xs.map key
      · simp [hm]
      · have hne : key r ≠ key x := Ne.symm hx
        simp [hm, hne]

theorem mem_map_key_upsert (k : K) (r : R) (rs : List R) :
    k ∈ (upsert key r rs).map key ↔ k = key r ∨ k ∈ rs.map key := by
  rw [map_key_upsert]
  split
  · constructor
    · exact Or.inr
    · rintro (rfl | h)
      · assumption
      · exact h
  · rw [List.mem_append, List.mem_singleton, or_comm]

theorem nodup_upsert {r : R} {rs : List R} (h : (rs.map key).Nodup) :
    ((upsert key r rs).map key).Nodup := by
  rw [map_key_upsert]
  split
  · exact h
  · rename_i hr
    rw [List.nodup_append]
    refine ⟨h, List.nodup_singleton _, ?_⟩
    rintro a ha b hb rfl
    rw [List.mem_singleton] at hb
    exact hr (hb ▸ ha)

/-- With distinct keys, an upsert leaves no other record under the key of `r`. -/
theorem mem_upsert_iff {x r : R} {rs : List R} (hnd : (rs.map key).Nodup) :
    x ∈ upsert key r rs ↔ x = r ∨ (x ∈ rs ∧ key x ≠ key r) := by
  -- with distinct keys membership is lookup, and lookup after an upsert is known
  have hfind : ∀ y, y ∈ upsert key r rs ↔ find key (key y) (upsert key r rs) = some y :=
    fun y => ⟨find_of_mem key (nodup_upsert key hnd), mem_of_find key⟩
  have hold : ∀ y, y ∈ rs ↔ find key (key y) rs = some y :=
    fun y => ⟨find_of_mem key hnd, mem_of_find key⟩
  rw [hfind, hold, find_upsert]
  by_cases hk : key x = key r
  · simp [hk, eq_comm]
  · have hne : x ≠ r := fun e => hk (by rw [e])
    simp [hk, hne]

/-! ## Removing -/

theorem find_remove (k k' : K) (rs : List R) :
    find key k' (remove key k rs) = if k' = k then none else find key k' rs := by
  induction rs with
  | nil => simp [remove]
  | cons x xs ih =>
    by_cases hx : key x = k
    · have hstep : remove key k (x :: xs) = remove key k xs := by simp [remove, hx]
      rw [hstep, ih, find_cons, hx]
      by_cases hk : k' = k
      · simp [hk]
      · rw [if_neg hk, if_neg hk, if_neg (Ne.symm hk)]
    · have hstep : remove key k (x :: xs) = x :: remove key k xs := by simp [remove, hx]
      rw [hstep, find_cons, find_cons, ih]
      by_cases hk : k' = k
      · rw [hk, if_neg hx, if_pos rfl, if_pos rfl]
      · rw [if_neg hk, if_neg hk]

theorem mem_remove {k : K} {x : R} {rs : List R} : x ∈ remove key k rs ↔ x ∈ rs ∧ key x ≠ k := by
  simp [remove]

theorem mem_map_key_remove (k k' : K) (rs : List R) :
    k' ∈ (remove key k rs).map key ↔ k' ∈ rs.map key ∧ k' ≠ k := by
  rw [← find_isSome_iff, find_remove, ← find_isSome_iff]
  by_cases hk : k' = k
  · simp [hk]
  · simp [hk]

theorem nodup_remove {k : K} {rs : List R} (h : (rs.map key).Nodup) :
    ((remove key k rs).map key).Nodup :=
  h.sublist (List.Sublist.map key List.filter_sublist)

theorem remove_of_not_mem {k : K} {rs : List R} (h : k ∉ rs.map key) : remove key k rs = rs := by
  rw [remove, List.filter_eq_self]
  intro r hr
  have hne : key r ≠ k := fun e => h (e ▸ List.mem_map_of_mem hr)
  simpa using hne

/-- An upsert is a search for the position and a write to it, or a push. -/
theorem upsert_eq_findIdx? (r : R) (rs : List R) :
    upsert key r rs =
      match rs.findIdx? fun x => key x == key r with
      | some pos => rs.set pos r
      | none => rs ++ [r] := by
  induction rs with
  | nil => rfl
  | cons x xs ih =>
    rw [upsert, List.findIdx?_cons]
    by_cases hx : key x = key r
    · simp [hx]
    · have hne : (key x == key r) = false := by simpa using hx
      rw [if_neg hx, hne, ih]
      -- a position in the tail is one more in the whole list
      cases xs.findIdx? fun x => key x == key r with
      | none => rfl
      | some pos => rfl

/-- A record of a new key is appended, any other one replaces what has its key. -/
theorem length_upsert (r : R) (rs : List R) :
    (upsert key r rs).length =
      if (find key (key r) rs).isSome then rs.length else rs.length + 1 := by
  induction rs with
  | nil => rfl
  | cons x xs ih =>
    rw [upsert, find_cons]
    by_cases hx : key x = key r
    · rw [if_pos hx, if_pos hx]
      rfl
    · rw [if_neg hx, if_neg hx, List.length_cons, ih]
      split <;> rfl

theorem length_remove_le (k : K) (rs : List R) : (remove key k rs).length ≤ rs.length :=
  List.length_filter_le _ _

theorem length_remove_ne_iff {k : K} {rs : List R} :
    (remove key k rs).length ≠ rs.length ↔ k ∈ rs.map key := by
  rw [remove, Ne, List.length_filter_eq_length_iff]
  simp only [decide_eq_true_eq, ne_eq, List.mem_map]
  push Not
  rfl

/-! ## Records of another type -/

section Map

variable {K' : Type u} {R' : Type v} [DecidableEq K'] (key' : R' → K') {f : R → R'}

/-- A map of records that tells keys apart as before commutes with an upsert. -/
theorem map_upsert (hkey : ∀ x y, key' (f x) = key' (f y) ↔ key x = key y) (r : R)
    (rs : List R) : (upsert key r rs).map f = upsert key' (f r) (rs.map f) := by
  induction rs with
  | nil => rfl
  | cons x xs ih =>
    rw [List.map_cons, upsert, upsert]
    by_cases hx : key x = key r
    · rw [if_pos hx, if_pos ((hkey x r).2 hx), List.map_cons]
    · rw [if_neg hx, if_neg (mt (hkey x r).1 hx), List.map_cons, ih]

theorem map_remove {k : K} {k' : K'} (hkey : ∀ x, key' (f x) = k' ↔ key x = k) (rs : List R) :
    (remove key k rs).map f = remove key' k' (rs.map f) := by
  rw [remove, remove, List.filter_map]
  congr 1
  apply List.filter_congr
  intro x _
  simp [hkey x]

end Map

/-! ## Weights -/

section Weight

variable (w : R → Nat)

theorem sum_upsert_of_find_none {r : R} {rs : List R} (h : find key (key r) rs = none) :
    ((upsert key r rs).map w).sum = (rs.map w).sum + w r := by
  induction rs with
  | nil => simp [upsert]
  | cons x xs ih =>
    rw [find_cons] at h
    by_cases hx : key x = key r
    · simp [hx] at h
    · rw [if_neg hx] at h
      rw [upsert, if_neg hx, List.map_cons, List.sum_cons, ih h, List.map_cons, List.sum_cons]
      omega

/-- Overwriting exchanges the weight of the old record for the weight of the new one. -/
theorem sum_upsert_of_find {r old : R} {rs : List R} (h : find key (key r) rs = some old) :
    ((upsert key r rs).map w).sum + w old = (rs.map w).sum + w r := by
  induction rs with
  | nil => simp at h
  | cons x xs ih =>
    rw [find_cons] at h
    by_cases hx : key x = key r
    · rw [if_pos hx, Option.some.injEq] at h
      subst h
      rw [upsert, if_pos hx, List.map_cons, List.sum_cons, List.map_cons, List.sum_cons]
      omega
    · rw [if_neg hx] at h
      rw [upsert, if_neg hx, List.map_cons, List.sum_cons, List.map_cons, List.sum_cons]
      have := ih h
      omega

theorem sum_remove_le (k : K) (rs : List R) :
    ((remove key k rs).map w).sum ≤ (rs.map w).sum :=
  (List.Sublist.map w List.filter_sublist).sum_le_sum fun _ _ => Nat.zero_le _

end Weight

end SkegRigging.Keyed
