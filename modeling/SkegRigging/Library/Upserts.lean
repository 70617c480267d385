import SkegRigging.Library.Keyed
import SkegRigging.Library.Replay

/-!
# Upserting many records

`upsertAll rs new` upserts the records `new` in order. Read as a map it replays their writes
(`find_upsertAll`), so only the last record of a key counts. Upserting the same records once more
changes nothing, not even the order of the list (`upsertAll_idem`).
-/

set_option autoImplicit false

namespace SkegRigging.Keyed

open Replay

universe u v

variable {K : Type u} {R : Type v} [DecidableEq K] (key : R → K)

/-- Upsert records in order. -/
def upsertAll (rs : List R) : List R → List R
  | [] => rs
  | r :: new => upsertAll (upsert key r rs) new

/-- The writes of records to the map from keys to records. -/
def writesOf (new : List R) : List (K × Option R) := new.map fun r => (key r, some r)

@[simp] theorem upsertAll_nil (rs : List R) : upsertAll key rs [] = rs := rfl

@[simp] theorem upsertAll_cons (r : R) (rs new : List R) :
    upsertAll key rs (r :: new) = upsertAll key (upsert key r rs) new := rfl

theorem upsertAll_append (rs new more : List R) :
    upsertAll key rs (new ++ more) = upsertAll key (upsertAll key rs new) more := by
  induction new generalizing rs with
  | nil => rfl
  | cons r new ih => exact ih (upsert key r rs)

theorem nodup_upsertAll {rs : List R} (h : (rs.map key).Nodup) (new : List R) :
    ((upsertAll key rs new).map key).Nodup := by
  induction new generalizing rs with
  | nil => exact h
  | cons r new ih => exact ih (nodup_upsert key h)

/-- As a map, the list replays the writes of the new records. -/
theorem find_upsertAll (k : K) (rs new : List R) :
    find key k (upsertAll key rs new) =
      replay (fun k => find key k rs) (writesOf key new) k := by
  induction new generalizing rs with
  | nil => rfl
  | cons r new ih =>
    have hmap : (fun k => find key k (upsert key r rs)) =
        Function.update (fun k => find key k rs) (key r) (some r) := by
      funext k
      rw [find_upsert, Function.update_apply]
    rw [upsertAll_cons, ih, hmap]
    rfl

omit [DecidableEq K] in
theorem map_fst_writesOf (new : List R) : (writesOf key new).map Prod.fst = new.map key := by
  rw [writesOf, List.map_map]
  rfl

/-- Among records with distinct keys, each one is found under its key afterwards. -/
theorem find_upsertAll_of_mem (rs : List R) {new : List R} (hnd : (new.map key).Nodup) {r : R}
    (h : r ∈ new) : find key (key r) (upsertAll key rs new) = some r := by
  have hwrite : (key r, some r) ∈ writesOf key new := List.mem_map_of_mem h
  rw [find_upsertAll]
  exact replay_of_mem _ ((map_fst_writesOf key new).symm ▸ hnd) hwrite

theorem find_upsertAll_of_not_mem (rs : List R) {new : List R} {k : K} (h : k ∉ new.map key) :
    find key k (upsertAll key rs new) = find key k rs := by
  rw [find_upsertAll]
  exact replay_of_not_mem _ ((map_fst_writesOf key new).symm ▸ h)

/-- A record stays, when no later one has its key. -/
theorem find_upsertAll_of_apart (rs old : List R) {new later : List R}
    (hnd : (new.map key).Nodup) (hlater : ∀ r ∈ later, key r ∉ new.map key) {r : R} (h : r ∈ new) :
    find key (key r) (upsertAll key rs (old ++ new ++ later)) = some r := by
  have hnot : key r ∉ later.map key := by
    intro hmem
    obtain ⟨r', hr', heq⟩ := List.mem_map.1 hmem
    exact hlater r' hr' (heq ▸ List.mem_map_of_mem h)
  rw [upsertAll_append, find_upsertAll_of_not_mem key _ hnot, upsertAll_append]
  exact find_upsertAll_of_mem key _ hnd h

theorem mem_map_key_upsertAll (k : K) (rs new : List R) :
    k ∈ (upsertAll key rs new).map key ↔ k ∈ rs.map key ∨ k ∈ new.map key := by
  induction new generalizing rs with
  | nil => simp
  | cons r new ih =>
    rw [upsertAll_cons, ih, mem_map_key_upsert, List.map_cons, List.mem_cons]
    tauto

/-- Records of known keys leave the keys and their order. -/
theorem map_key_upsertAll {rs new : List R} (h : ∀ r ∈ new, key r ∈ rs.map key) :
    (upsertAll key rs new).map key = rs.map key := by
  induction new generalizing rs with
  | nil => rfl
  | cons r new ih =>
    have hkeys : (upsert key r rs).map key = rs.map key := by
      rw [map_key_upsert, if_pos (h r List.mem_cons_self)]
    rw [upsertAll_cons, ih, hkeys]
    intro x hx
    rw [hkeys]
    exact h x (List.mem_cons_of_mem _ hx)

/-- Lists with the same distinct keys, in the same order, are equal when they are equal as maps. -/
theorem eq_of_find {xs ys : List R} (hkeys : xs.map key = ys.map key) (hnd : (xs.map key).Nodup)
    (hfind : ∀ k, find key k xs = find key k ys) : xs = ys := by
  induction xs generalizing ys with
  | nil =>
    rw [List.map_nil, eq_comm, List.map_eq_nil_iff] at hkeys
    exact hkeys.symm
  | cons x xs ih =>
    cases ys with
    | nil => simp at hkeys
    | cons y ys =>
      rw [List.map_cons, List.map_cons, List.cons.injEq] at hkeys
      rw [List.map_cons, List.nodup_cons] at hnd
      have hhead : x = y := by
        have hx := hfind (key x)
        rw [find_cons, if_pos rfl, find_cons, if_pos hkeys.1.symm] at hx
        exact Option.some.inj hx
      rw [hhead, ih hkeys.2 hnd.2]
      intro k
      by_cases hk : k = key x
      · -- the key of the head is in neither tail
        rw [hk, (find_eq_none_iff key).2 hnd.1, (find_eq_none_iff key).2 (hkeys.2 ▸ hnd.1)]
      · have hrest := hfind k
        rwa [find_cons, if_neg (Ne.symm hk), find_cons, ← hkeys.1, if_neg (Ne.symm hk)] at hrest

/-- Upserting the same records once more changes nothing. -/
theorem upsertAll_idem {rs : List R} (hnd : (rs.map key).Nodup) (new : List R) :
    upsertAll key (upsertAll key rs new) new = upsertAll key rs new := by
  have hkeys : (upsertAll key (upsertAll key rs new) new).map key =
      (upsertAll key rs new).map key := by
    apply map_key_upsertAll
    intro r hr
    rw [mem_map_key_upsertAll]
    exact Or.inr (List.mem_map_of_mem hr)
  apply eq_of_find key hkeys
  · rw [hkeys]
    exact nodup_upsertAll key hnd new
  · intro k
    have hmap : (fun k => find key k (upsertAll key rs new)) =
        replay (fun k => find key k rs) (writesOf key new) := by
      funext k
      exact find_upsertAll key k rs new
    rw [find_upsertAll, hmap, find_upsertAll, replay_idem]

end SkegRigging.Keyed
