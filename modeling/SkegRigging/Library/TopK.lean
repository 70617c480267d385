import Mathlib.Data.List.Sort
import Mathlib.Order.Defs.LinearOrder

/-!
# The best of a scored collection

A collection assigns scores to the ids it holds (`scores i = none` when `i` is absent). `IsTop
scores n l` says that `l` lists `n` of the best scored ids (all of them when there are fewer), best
first. A post-filter takes the first `k` accepted entries of such a list. It never passes over an
accepted id for a worse one (`IsTop.le_of_not_mem_take`); how many entries it returns depends on how
many accepted ids the list happens to hold.

`IsFirst le xs k l` says that `l` is what a stable sort of the list `xs` begins with: `k` entries
that no other one comes before, in order, and equal ones as they stand in `xs`.

`IsBest key xs l` says that `l` lists entries of `xs` with the largest keys, however ties are
broken. The keys of such a list are determined by its length (`IsBest.keys_isPrefix`), and so are
its entries when no two of them have one key.
-/

set_option autoImplicit false

namespace SkegRigging.TopK

universe u v

variable {I : Type u} {S : Type v} [LinearOrder S]

/-- `l` lists `n` best scored ids, or all of them, best first. -/
structure IsTop (scores : I → Option S) (n : Nat) (l : List (I × S)) : Prop where
  nodup : (l.map Prod.fst).Nodup
  sound : ∀ p ∈ l, scores p.1 = some p.2
  sorted : l.Pairwise fun a b => b.2 ≤ a.2
  length_le : l.length ≤ n
  rest : ∀ i s, scores i = some s → i ∉ l.map Prod.fst → l.length = n ∧ ∀ p ∈ l, s ≤ p.2

/-- In a list sorted best first, what comes after a cut scores no better than what comes before. -/
theorem le_of_mem_take_of_mem_drop {l : List (I × S)} (h : l.Pairwise fun a b => b.2 ≤ a.2)
    {k : Nat} {p q : I × S} (hp : p ∈ l.take k) (hq : q ∈ l.drop k) : q.2 ≤ p.2 := by
  rw [← List.take_append_drop k l, List.pairwise_append] at h
  exact h.2.2 p hp q hq

/-- A bound cut off at `k` is reached exactly when there is enough for it. -/
theorem min_eq_min_iff {k a b : Nat} (h : a ≤ b) : min k a = min k b ↔ min k b ≤ a := by
  omega

namespace IsTop

variable {scores : I → Option S} {n : Nat} {l : List (I × S)}

/-- No accepted id outside the first `k` accepted entries scores better than one of them. -/
theorem le_of_not_mem_take (h : IsTop scores n l) (acc : I → Bool) (k : Nat) {i : I} {s : S}
    (hi : scores i = some s) (hacc : acc i = true)
    (hout : i ∉ ((l.filter fun p => acc p.1).take k).map Prod.fst) {p : I × S}
    (hp : p ∈ (l.filter fun p => acc p.1).take k) : s ≤ p.2 := by
  have hpl : p ∈ l := (List.mem_filter.1 (List.mem_of_mem_take hp)).1
  -- inside the list the order decides; outside it the list is full and holds nothing worse
  by_cases hil : i ∈ l.map Prod.fst
  · obtain ⟨q, hq, rfl⟩ := List.mem_map.1 hil
    have hqs : q.2 = s := by
      have hsound := h.sound q hq
      rw [hi, Option.some.injEq] at hsound
      exact hsound.symm
    have hqf : q ∈ l.filter fun p => acc p.1 := List.mem_filter.2 ⟨hq, hacc⟩
    rw [← List.take_append_drop k (l.filter fun p => acc p.1), List.mem_append] at hqf
    rcases hqf with hqt | hqd
    · exact absurd (List.mem_map_of_mem hqt) hout
    · rw [← hqs]
      exact le_of_mem_take_of_mem_drop (h.sorted.sublist List.filter_sublist) hp hqd
  · exact (h.rest i s hi hil).2 p hpl

/-- When there is room for every scored id, each of them is listed. -/
theorem mem_of_length_le (h : IsTop scores n l) {ids : List I}
    (hids : ∀ i, (scores i).isSome → i ∈ ids) (hlen : ids.length ≤ n) {i : I} {s : S}
    (hi : scores i = some s) : i ∈ l.map Prod.fst := by
  by_contra hout
  obtain ⟨hfull, -⟩ := h.rest i s hi hout
  -- one id more than the list has entries, all of them among the scored ones
  have hsub : i :: l.map Prod.fst ⊆ ids := by
    intro j hj
    rcases List.mem_cons.1 hj with rfl | hmem
    · exact hids j (Option.isSome_iff_exists.2 ⟨s, hi⟩)
    · obtain ⟨p, hp, rfl⟩ := List.mem_map.1 hmem
      exact hids p.1 (Option.isSome_iff_exists.2 ⟨p.2, h.sound p hp⟩)
  have hle := (List.subperm_of_subset (List.nodup_cons.2 ⟨hout, h.nodup⟩) hsub).length_le
  rw [List.length_cons, List.length_map, hfull] at hle
  omega

end IsTop

/-! ## The beginning of a stable sort -/

section Stable

variable {A : Type u} {le : A → A → Bool} {xs l : List A} {k : Nat}

/-- `l` holds the first `k` entries of `xs` in the order `le`, and entries that are equal in that
order as they stand in `xs`. -/
structure IsFirst (le : A → A → Bool) (xs : List A) (k : Nat) (l : List A) : Prop where
  length : l.length = min k xs.length
  subset : l ⊆ xs
  nodup : l.Nodup
  sorted : l.Pairwise fun a b => le a b = true
  ties : l.Pairwise fun a b => le b a = true → [a, b].Sublist xs
  best : ∀ x ∈ xs, x ∉ l → ∀ a ∈ l, le a x = true

/-- Two entries of a list stand in one order or the other. -/
theorem pair_sublist_or {a b : A} (ha : a ∈ xs) (hb : b ∈ xs) (hne : a ≠ b) :
    [a, b].Sublist xs ∨ [b, a].Sublist xs := by
  induction xs with
  | nil => simp at ha
  | cons x xs ih =>
    rcases List.mem_cons.1 ha with rfl | ha'
    · have hb' : b ∈ xs := (List.mem_cons.1 hb).resolve_left (Ne.symm hne)
      exact Or.inl ((List.singleton_sublist.2 hb').cons_cons a)
    · rcases List.mem_cons.1 hb with rfl | hb'
      · exact Or.inr ((List.singleton_sublist.2 ha').cons_cons b)
      · rcases ih ha' hb' with h | h
        · exact Or.inl (h.cons x)
        · exact Or.inr (h.cons x)

/-- In a list without duplicates two entries do not stand in both orders. -/
theorem not_pair_sublist_swap {a b : A} (hnd : xs.Nodup) (hab : [a, b].Sublist xs) :
    ¬ [b, a].Sublist xs := by
  intro hba
  induction xs with
  | nil => simp at hab
  | cons x xs ih =>
    rw [List.nodup_cons] at hnd
    cases hab with
    | cons _ hab' =>
      cases hba with
      | cons _ hba' => exact ih hnd.2 hab' hba'
      | cons_cons _ hba' => exact hnd.1 (hab'.subset (by simp))
    | cons_cons _ hab' =>
      cases hba with
      | cons _ hba' => exact hnd.1 (hba'.subset (by simp))
      | cons_cons _ hba' => exact hnd.1 (List.singleton_sublist.1 hab')

/-- The first `k` entries after a stable sort. -/
theorem isFirst_mergeSort (trans : ∀ a b c, le a b = true → le b c = true → le a c = true)
    (total : ∀ a b, (le a b || le b a) = true) (hnd : xs.Nodup) (k : Nat) :
    IsFirst le xs k ((xs.mergeSort le).take k) := by
  have hsorted : (xs.mergeSort le).Pairwise fun a b => le a b = true :=
    List.pairwise_mergeSort trans total xs
  have hnd' : (xs.mergeSort le).Nodup := (List.mergeSort_perm xs le).nodup_iff.2 hnd
  refine ⟨?_, ?_, ?_, ?_, ?_, ?_⟩
  · rw [List.length_take, List.length_mergeSort]
  · intro a ha
    exact List.mem_mergeSort.1 (List.mem_of_mem_take ha)
  · exact hnd'.sublist (List.take_sublist k _)
  · exact hsorted.sublist (List.take_sublist k _)
  · rw [List.pairwise_iff_forall_sublist]
    intro a b hab hle
    have hab' : [a, b].Sublist (xs.mergeSort le) := hab.trans (List.take_sublist k _)
    have ha : a ∈ xs := List.mem_mergeSort.1 (hab'.subset (by simp))
    have hb : b ∈ xs := List.mem_mergeSort.1 (hab'.subset (by simp))
    have hne : a ≠ b := by
      rintro rfl
      have hpair := hnd'.sublist hab'
      simp at hpair
    rcases pair_sublist_or ha hb hne with h | h
    · exact h
    · -- the sort would have kept `b` before `a`
      have hba := List.pair_sublist_mergeSort trans total hle h
      exact absurd hba (not_pair_sublist_swap hnd' hab')
  · intro x hx hout a ha
    have hmem : x ∈ xs.mergeSort le := List.mem_mergeSort.2 hx
    rw [← List.take_append_drop k (xs.mergeSort le)] at hmem hsorted
    rw [List.pairwise_append] at hsorted
    exact hsorted.2.2 a ha x ((List.mem_append.1 hmem).resolve_left hout)

end Stable

/-! ## Lists of best entries -/

section Best

variable {A : Type u} {key : A → S} {xs l l' : List A}

/-- `l` lists entries of `xs`, largest keys first; no key outside is larger than one inside. -/
structure IsBest (key : A → S) (xs l : List A) : Prop where
  subset : l ⊆ xs
  nodup : l.Nodup
  sorted : l.Pairwise fun a b => key b ≤ key a
  best : ∀ x ∈ xs, x ∉ l → ∀ a ∈ l, key x ≤ key a

/-- All keys of a list, largest first. -/
def sortedKeys (key : A → S) (xs : List A) : List S :=
  (xs.map key).mergeSort fun a b => decide (b ≤ a)

theorem sortedKeys_sorted (key : A → S) (xs : List A) :
    (sortedKeys key xs).Pairwise fun a b => b ≤ a := by
  have htrans : ∀ a b c : S, decide (b ≤ a) = true → decide (c ≤ b) = true →
      decide (c ≤ a) = true :=
    fun a b c hab hbc => decide_eq_true ((of_decide_eq_true hbc).trans (of_decide_eq_true hab))
  have htotal : ∀ a b : S, (decide (b ≤ a) || decide (a ≤ b)) = true := fun a b =>
    Bool.or_eq_true_iff.2 ((le_total b a).imp decide_eq_true decide_eq_true)
  exact (List.pairwise_mergeSort htrans htotal _).imp fun h => of_decide_eq_true h

namespace IsBest

/-- A larger scale for the keys changes nothing. -/
theorem comp {T : Type v} [LinearOrder T] {scale : S → T} (hscale : Monotone scale)
    (h : IsBest key xs l) : IsBest (fun a => scale (key a)) xs l where
  subset := h.subset
  nodup := h.nodup
  sorted := h.sorted.imp fun hle => hscale hle
  best := fun x hx hout a ha => hscale (h.best x hx hout a ha)

/-- The keys of the best entries are the first ones of all keys. -/
theorem isPrefix_sortedKeys (h : IsBest key xs l) (hnd : xs.Nodup) :
    l.map key <+: sortedKeys key xs := by
  classical
  -- the other entries, sorted as well, come behind the best ones
  let rest := xs.filter fun x => !decide (x ∈ l)
  have hperm : l.Perm (xs.filter fun x => decide (x ∈ l)) := by
    rw [List.perm_ext_iff_of_nodup h.nodup (hnd.filter _)]
    intro a
    rw [List.mem_filter, decide_eq_true_eq]
    exact ⟨fun ha => ⟨h.subset ha, ha⟩, And.right⟩
  have hall : (l.map key ++ sortedKeys key rest).Perm (sortedKeys key xs) := by
    have hkeys : (l.map key ++ rest.map key).Perm (xs.map key) := by
      rw [← List.map_append]
      exact ((hperm.append_right rest).trans (List.filter_append_perm _ xs)).map key
    exact ((List.mergeSort_perm _ _).append_left _).trans
      (hkeys.trans (List.mergeSort_perm _ _).symm)
  have hsorted : (l.map key ++ sortedKeys key rest).Pairwise fun a b => b ≤ a := by
    rw [List.pairwise_append, List.pairwise_map]
    refine ⟨h.sorted, sortedKeys_sorted key rest, ?_⟩
    intro s hs s' hs'
    obtain ⟨a, ha, rfl⟩ := List.mem_map.1 hs
    obtain ⟨x, hx, rfl⟩ := List.mem_map.1 (List.mem_mergeSort.1 hs')
    obtain ⟨hmem, hout⟩ := List.mem_filter.1 hx
    exact h.best x hmem (by simpa using hout) a ha
  have heq : l.map key ++ sortedKeys key rest = sortedKeys key xs :=
    hall.eq_of_pairwise (fun a b _ _ hba hab => le_antisymm hab hba) hsorted
      (sortedKeys_sorted key xs)
  exact ⟨_, heq⟩

/-- Of two lists of best entries, the longer one begins with the keys of the other. -/
theorem keys_isPrefix (h : IsBest key xs l) (h' : IsBest key xs l') (hnd : xs.Nodup)
    (hle : l.length ≤ l'.length) : l.map key <+: l'.map key :=
  List.prefix_of_prefix_length_le (h.isPrefix_sortedKeys hnd) (h'.isPrefix_sortedKeys hnd)
    (by rwa [List.length_map, List.length_map])

/-- When the keys of the entries differ, the longer list begins with the other one. -/
theorem isPrefix (h : IsBest key xs l) (h' : IsBest key xs l') (hnd : xs.Nodup)
    (hle : l.length ≤ l'.length) (hinj : ∀ a ∈ xs, ∀ b ∈ xs, key a = key b → a = b) :
    l <+: l' := by
  have hkeys := h.keys_isPrefix h' hnd hle
  rw [List.prefix_iff_eq_take, List.length_map, ← List.map_take] at hkeys
  have hsub : l'.take l.length ⊆ xs := fun a ha => h'.subset (List.mem_of_mem_take ha)
  have hlen : l.length = (l'.take l.length).length := by
    rw [List.length_take, min_eq_left hle]
  rw [List.prefix_iff_eq_take]
  apply List.ext_getElem hlen
  intro i hi hi'
  apply hinj _ (h.subset (List.getElem_mem hi)) _ (hsub (List.getElem_mem hi'))
  have hone := List.getElem_of_eq hkeys (by rwa [List.length_map] : i < (l.map key).length)
  rwa [List.getElem_map, List.getElem_map] at hone

end IsBest

end Best

end SkegRigging.TopK
