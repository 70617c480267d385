import Mathlib.Algebra.Ring.Nat
import Mathlib.Data.List.Induction

/-!
# Ids from a wrapping counter

A list of uses of 64-bit ids. A use may `take` its id, or leave it free. `Consecutive n xs` says
that the ids come from a counter that starts at `n` and moves on, modulo `2 ^ 64`, each time an id
is taken; `Fresh xs` says that no use meets an id taken by an earlier one. A consecutive list is
fresh exactly when fewer than `2 ^ 64` ids are taken before its last use (`fresh_iff`).
-/

set_option autoImplicit false

namespace SkegRigging.Allocation

universe u

variable {α : Type u} (key : α → UInt64) (taken : α → Bool)

/-- The counter after the uses `xs`. -/
def advance (n : UInt64) (xs : List α) : UInt64 := n + UInt64.ofNat (xs.countP taken)

/-- Every use has the id at which the counter stands. -/
def Consecutive : UInt64 → List α → Prop
  | _, [] => True
  | n, x :: xs => key x = n ∧ Consecutive (if taken x then n + 1 else n) xs

/-- No use has an id that an earlier use took. -/
def Fresh (xs : List α) : Prop := xs.Pairwise fun a b => taken a = true → key a ≠ key b

@[simp] theorem advance_nil (n : UInt64) : advance taken n ([] : List α) = n := by
  simp [advance]

theorem advance_of_none {n : UInt64} {xs : List α} (h : xs.countP taken = 0) :
    advance taken n xs = n := by
  rw [advance, h]
  simp

@[simp] theorem advance_cons (n : UInt64) (x : α) (xs : List α) :
    advance taken n (x :: xs) = advance taken (if taken x then n + 1 else n) xs := by
  cases hx : taken x with
  | false => simp [advance, hx]
  | true =>
    simp only [advance, List.countP_cons, hx, if_true, UInt64.ofNat_add, UInt64.add_assoc]
    -- the counter moved by one before the rest was counted
    rw [UInt64.add_comm 1]
    rfl

theorem advance_append (n : UInt64) (xs ys : List α) :
    advance taken n (xs ++ ys) = advance taken (advance taken n xs) ys := by
  rw [advance, advance, advance, List.countP_append, UInt64.ofNat_add, UInt64.add_assoc]

theorem consecutive_append {n : UInt64} {xs ys : List α} :
    Consecutive key taken n (xs ++ ys) ↔
      Consecutive key taken n xs ∧ Consecutive key taken (advance taken n xs) ys := by
  induction xs generalizing n with
  | nil => simp [Consecutive]
  | cons x xs ih => rw [List.cons_append, Consecutive, Consecutive, ih, advance_cons, and_assoc]

/-- The first id taken is the one the counter started at. -/
theorem Consecutive.exists_taken {n : UInt64} {xs : List α} (h : Consecutive key taken n xs)
    (hpos : 0 < xs.countP taken) : ∃ x ∈ xs, taken x = true ∧ key x = n := by
  induction xs generalizing n with
  | nil => simp at hpos
  | cons x xs ih =>
    obtain ⟨hkey, hrest⟩ := h
    cases hx : taken x with
    | true => exact ⟨x, List.mem_cons_self, hx, hkey⟩
    | false =>
      rw [hx] at hrest
      obtain ⟨y, hy, htaken, hkeyy⟩ := ih hrest (by simpa [List.countP_cons, hx] using hpos)
      exact ⟨y, List.mem_cons_of_mem x hy, htaken, hkeyy⟩

/-- The id of a use is given by the number of ids taken before it. -/
theorem Consecutive.key_eq {n : UInt64} {xs ys : List α} {x : α}
    (h : Consecutive key taken n (xs ++ x :: ys)) :
    key x = n + UInt64.ofNat (xs.countP taken) :=
  ((consecutive_append key taken).1 h).2.1

/-- A counter that does not come round counts up. -/
theorem toNat_advance {n : UInt64} {xs : List α} (hroom : n.toNat + xs.countP taken < 2 ^ 64) :
    (advance taken n xs).toNat = n.toNat + xs.countP taken := by
  rw [advance, UInt64.toNat_add, UInt64.toNat_ofNat']
  omega

/-- As long as the counter does not come round, no id taken is below its start. -/
theorem Consecutive.le_key {n : UInt64} {xs : List α} (h : Consecutive key taken n xs)
    (hroom : n.toNat + xs.countP taken ≤ 2 ^ 64) {x : α} (hx : x ∈ xs) (htaken : taken x = true) :
    n.toNat ≤ (key x).toNat := by
  obtain ⟨ys, zs, rfl⟩ := List.append_of_mem hx
  rw [List.countP_append, List.countP_cons, htaken, if_pos rfl] at hroom
  have hkey : key x = advance taken n ys := h.key_eq
  rw [hkey, toNat_advance taken (by omega)]
  exact Nat.le_add_right _ _

/-- Every number of taken ids below the total is reached just before an id is taken. -/
theorem exists_countP_eq {xs : List α} {k : Nat} (h : k < xs.countP taken) :
    ∃ ys x zs, xs = ys ++ x :: zs ∧ taken x = true ∧ ys.countP taken = k := by
  induction xs generalizing k with
  | nil => simp at h
  | cons x xs ih =>
    -- a use that takes nothing leaves the counter, so the search goes on in the rest
    cases hx : taken x with
    | false =>
      obtain ⟨ys, y, zs, rfl, hy, hk⟩ := ih (by simpa [List.countP_cons, hx] using h)
      exact ⟨x :: ys, y, zs, rfl, hy, by simpa [List.countP_cons, hx] using hk⟩
    | true =>
      cases k with
      | zero => exact ⟨[], x, xs, rfl, hx, rfl⟩
      | succ k =>
        obtain ⟨ys, y, zs, rfl, hy, hk⟩ := ih (k := k) (by simpa [List.countP_cons, hx] using h)
        exact ⟨x :: ys, y, zs, rfl, hy, by simp [hx, hk]⟩

theorem ofNat_eq_iff {a b : Nat} :
    UInt64.ofNat a = UInt64.ofNat b ↔ a % 2 ^ 64 = b % 2 ^ 64 := by
  rw [← UInt64.toNat_inj, UInt64.toNat_ofNat', UInt64.toNat_ofNat']

/-- A last use added to a fresh list keeps it fresh exactly when the counter has not come round. -/
theorem Consecutive.last_fresh_iff {n : UInt64} {xs : List α} {x : α}
    (h : Consecutive key taken n (xs ++ [x])) :
    (∀ y ∈ xs, taken y = true → key y ≠ key x) ↔ xs.countP taken < 2 ^ 64 := by
  have hx := h.key_eq
  have hxs := ((consecutive_append key taken).1 h).1
  constructor
  · intro hfresh
    by_contra hcount
    -- The use that stood one full turn of the counter earlier took the same id.
    obtain ⟨ys, y, zs, rfl, hy, hk⟩ :=
      exists_countP_eq taken (show xs.countP taken - 2 ^ 64 < xs.countP taken by omega)
    apply hfresh y (by simp) hy
    rw [hxs.key_eq, hx, hk, UInt64.add_right_inj, ofNat_eq_iff]
    omega
  · intro hcount y hy htaken hkey
    obtain ⟨ys, zs, rfl⟩ := List.append_of_mem hy
    rw [hxs.key_eq, hx, UInt64.add_right_inj, ofNat_eq_iff] at hkey
    have hlt : ys.countP taken < (ys ++ y :: zs).countP taken := by
      rw [List.countP_append, List.countP_cons, htaken]
      simp
    omega

/-- A consecutive list is fresh exactly when the counter has not come round before the last use. -/
theorem fresh_iff {n : UInt64} {xs : List α} (h : Consecutive key taken n xs) :
    Fresh key taken xs ↔ xs.dropLast.countP taken < 2 ^ 64 := by
  induction xs using List.reverseRecOn with
  | nil => simp [Fresh]
  | append_singleton xs x ih =>
    have hxs := ((consecutive_append key taken).1 h).1
    have hlast := h.last_fresh_iff
    rw [List.dropLast_concat, ← hlast, Fresh, List.pairwise_append]
    constructor
    · rintro ⟨-, -, hcross⟩ y hy
      exact hcross y hy x (List.mem_singleton_self x)
    · intro hcross
      refine ⟨(ih hxs).2 ?_, List.pairwise_singleton _ _, ?_⟩
      · have hsub := (List.dropLast_sublist xs).countP_le (p := taken)
        exact Nat.lt_of_le_of_lt hsub (hlast.1 hcross)
      · intro y hy z hz
        rw [List.mem_singleton.1 hz]
        exact hcross y hy

end SkegRigging.Allocation
