import Mathlib.Order.Compare

/-!
# Comparing by a key that may be missing

`compareKeys` compares two elements by their keys, and calls them equal when one of them has none.
An element without a key is then equal to all others, so the relation is transitive only where that
makes no difference: when every element has a key, or when all keys are equal (`transCmp_iff`).
-/

set_option autoImplicit false

namespace SkegRigging.PartialKeys

universe u v

variable {α : Type u} {K : Type v} [LinearOrder K] (key : α → Option K)

/-- Compare by key; without one, the elements are equal. -/
def compareKeys (a b : α) : Ordering :=
  match key a, key b with
  | some x, some y => compare x y
  | _, _ => .eq

/-- The keys that there are, are equal. -/
def Constant (l : List α) : Prop :=
  ∀ a ∈ l, ∀ b ∈ l, ∀ x y, key a = some x → key b = some y → x = y

variable {key} {a b : α} {l : List α}

theorem compareKeys_some {x y : K} (ha : key a = some x) (hb : key b = some y) :
    compareKeys key a b = compare x y := by
  rw [compareKeys, ha, hb]

theorem compareKeys_none_left (ha : key a = none) : compareKeys key a b = .eq := by
  rw [compareKeys, ha]

theorem compareKeys_none_right (hb : key b = none) : compareKeys key a b = .eq := by
  rw [compareKeys, hb]
  cases key a <;> rfl

/-- Between elements with keys, the comparison is that of the keys. -/
theorem transCmp_of_keys (h : ∀ a ∈ l, (key a).isSome = true) :
    Std.TransCmp fun a b : {a // a ∈ l} => compareKeys key a.1 b.1 := by
  have hkey : ∀ a : {a // a ∈ l}, ∃ x, key a.1 = some x :=
    fun a => Option.isSome_iff_exists.1 (h a.1 a.2)
  refine { eq_swap := fun {a b} => ?_, isLE_trans := fun {a b c} hab hbc => ?_ }
  · obtain ⟨x, hx⟩ := hkey a
    obtain ⟨y, hy⟩ := hkey b
    rw [compareKeys_some hx hy, compareKeys_some hy hx]
    exact Std.OrientedCmp.eq_swap
  · obtain ⟨x, hx⟩ := hkey a
    obtain ⟨y, hy⟩ := hkey b
    obtain ⟨z, hz⟩ := hkey c
    rw [compareKeys_some hx hy] at hab
    rw [compareKeys_some hy hz] at hbc
    rw [compareKeys_some hx hz]
    exact Std.TransCmp.isLE_trans hab hbc

/-- Where all keys are equal, so are all elements. -/
theorem transCmp_of_constant (h : Constant key l) :
    Std.TransCmp fun a b : {a // a ∈ l} => compareKeys key a.1 b.1 := by
  have heq : ∀ a b : {a // a ∈ l}, compareKeys key a.1 b.1 = .eq := by
    intro a b
    cases ha : key a.1 with
    | none => exact compareKeys_none_left ha
    | some x =>
      cases hb : key b.1 with
      | none => exact compareKeys_none_right hb
      | some y =>
        rw [compareKeys_some ha hb, compare_eq_iff_eq]
        exact h a.1 a.2 b.1 b.2 x y ha hb
  refine { eq_swap := fun {a b} => ?_, isLE_trans := fun {a b c} _ _ => ?_ }
  · rw [heq, heq]
    rfl
  · rw [heq]
    rfl

/-- The comparison is a total preorder on a list exactly when each of its elements has a key, or the
keys that there are, are equal. -/
theorem transCmp_iff : (Std.TransCmp fun a b : {a // a ∈ l} => compareKeys key a.1 b.1) ↔
    (∀ a ∈ l, (key a).isSome = true) ∨ Constant key l := by
  constructor
  · intro htrans
    by_cases hkeys : ∀ a ∈ l, (key a).isSome = true
    · exact Or.inl hkeys
    · apply Or.inr
      intro a ha b hb x y hx hy
      -- an element without a key lies between any two others
      obtain ⟨c, hc, hnone⟩ : ∃ c ∈ l, key c = none := by simpa using hkeys
      have hac : compareKeys key a c = .eq := compareKeys_none_right hnone
      have hcb : compareKeys key c b = .eq := compareKeys_none_left hnone
      have hab : compareKeys key a b = .eq :=
        htrans.eq_trans (a := ⟨a, ha⟩) (b := ⟨c, hc⟩) (c := ⟨b, hb⟩) hac hcb
      rwa [compareKeys_some hx hy, compare_eq_iff_eq] at hab
  · rintro (hkeys | hconstant)
    · exact transCmp_of_keys hkeys
    · exact transCmp_of_constant hconstant

end SkegRigging.PartialKeys
