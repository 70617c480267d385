import SkegRigging.Library.Runs
import Mathlib.Data.List.Forall2
import Mathlib.Logic.Function.Basic

/-!
# Debouncing on the leading edge

Requests with a key and a time arrive in a list. A request is granted unless the last granted
request of its key is less than `window` old; the time of a granted request is remembered. Only the
requests of a key matter for that key.

A request stands for something that `happened` no later than it is handled, and it is served by a
grant of its key at or after that time. `served_iff` says when every request is served: a request
swallowed by a grant older than its happening needs a later request outside the window of that
grant.
-/

set_option autoImplicit false

namespace SkegRigging.Debounce

open Runs

universe u v

variable {α : Type u} {K : Type v} [DecidableEq K] (key : α → K) (now : α → Nat) (window : Nat)

/-- Whether the last grant of the request's key is too recent. -/
def blocked (seen : K → Option Nat) (r : α) : Bool :=
  match seen (key r) with
  | some prev => decide (now r - prev < window)
  | none => false

/-- The remembered times after a request. -/
def step (seen : K → Option Nat) (r : α) : K → Option Nat :=
  if blocked key now window seen r then seen else Function.update seen (key r) (some (now r))

/-- The requests granted. -/
def granted : (K → Option Nat) → List α → List α
  | _, [] => []
  | seen, r :: rs =>
    if blocked key now window seen r then granted seen rs
    else r :: granted (step key now window seen r) rs

/-- The request falls into the window of a grant at `prev` that is older than what it stands for. -/
def Swallowed (happened : α → Nat) (seen : K → Option Nat) (r : α) (prev : Nat) : Prop :=
  seen (key r) = some prev ∧ now r - prev < window ∧ prev < happened r

/-- Every request is served by a grant of its key at or after the time it stands for. -/
def Served (happened : α → Nat) (seen : K → Option Nat) (rs : List α) : Prop :=
  ∀ r ∈ rs, ∃ a ∈ granted key now window seen rs, key a = key r ∧ happened r ≤ now a

/-- Requests are handled in the order of the clock, and not before what they stand for. -/
structure Clocked (happened : α → Nat) (rs : List α) : Prop where
  happened : ∀ r ∈ rs, happened r ≤ now r
  ordered : rs.Pairwise fun a b => now a ≤ now b

variable {key now window} {happened : α → Nat}

theorem Clocked.append {rs rs' : List α} (h : Clocked now happened (rs ++ rs')) :
    Clocked now happened rs ∧ Clocked now happened rs' := by
  obtain ⟨hrs, hrs', -⟩ := List.pairwise_append.1 h.ordered
  refine ⟨⟨fun r hr => h.happened r ?_, hrs⟩, ⟨fun r hr => h.happened r ?_, hrs'⟩⟩
  · exact List.mem_append_left _ hr
  · exact List.mem_append_right _ hr

theorem Clocked.tail {r : α} {rs : List α} (h : Clocked now happened (r :: rs)) :
    Clocked now happened rs := by
  rw [← List.singleton_append] at h
  exact h.append.2

theorem Clocked.le_of_split {pre post : List α} {u v : α}
    (h : Clocked now happened (pre ++ u :: post)) (hv : v ∈ post) : now u ≤ now v :=
  (List.pairwise_cons.1 h.append.2.ordered).1 v hv

/-! ## Blocked and granted requests -/

omit [DecidableEq K] in
theorem blocked_iff {seen : K → Option Nat} {r : α} :
    blocked key now window seen r = true ↔
      ∃ prev, seen (key r) = some prev ∧ now r - prev < window := by
  rw [blocked]
  cases seen (key r) <;> simp

theorem step_blocked {seen : K → Option Nat} {r : α} (h : blocked key now window seen r = true) :
    step key now window seen r = seen := if_pos h

theorem step_granted {seen : K → Option Nat} {r : α} (h : blocked key now window seen r = false) :
    step key now window seen r = Function.update seen (key r) (some (now r)) := by
  rw [step, h]
  rfl

/-- The remembered time of a key changes with a grant of that key only. -/
theorem step_of_not {seen : K → Option Nat} {r : α} {k : K}
    (h : ¬(blocked key now window seen r = false ∧ key r = k)) :
    step key now window seen r k = seen k := by
  cases hr : blocked key now window seen r with
  | true => rw [step_blocked hr]
  | false =>
    -- a grant writes under its own key only
    have hk : k ≠ key r := fun hk => h ⟨hr, hk.symm⟩
    rw [step_granted hr, Function.update_of_ne hk]

theorem granted_cons {seen : K → Option Nat} {r : α} {rs : List α} :
    granted key now window seen (r :: rs) =
      (if blocked key now window seen r then [] else [r]) ++
        granted key now window (step key now window seen r) rs := by
  rw [granted]
  cases hr : blocked key now window seen r with
  | true => rw [step_blocked hr]; rfl
  | false => rfl

theorem granted_append (seen : K → Option Nat) (rs rs' : List α) :
    granted key now window seen (rs ++ rs') =
      granted key now window seen rs ++
        granted key now window (run (step key now window) seen rs) rs' := by
  induction rs generalizing seen with
  | nil => rfl
  | cons r rs ih =>
    rw [List.cons_append, granted_cons, granted_cons, ih, run_cons, List.append_assoc]

theorem mem_of_granted {seen : K → Option Nat} {rs : List α} {a : α}
    (h : a ∈ granted key now window seen rs) : a ∈ rs := by
  induction rs generalizing seen with
  | nil => exact h
  | cons r rs ih =>
    rw [granted_cons, List.mem_append] at h
    rcases h with h | h
    · split at h
      · simp at h
      · rw [List.mem_singleton.1 h]
        exact List.mem_cons_self
    · exact List.mem_cons_of_mem r (ih h)

/-- A remembered time is the time of a grant. -/
theorem exists_granted_of_seen {seen : K → Option Nat} {rs : List α} {k : K} {t : Nat}
    (h : run (step key now window) seen rs k = some t) :
    seen k = some t ∨ ∃ a ∈ granted key now window seen rs, key a = k ∧ now a = t := by
  induction rs generalizing seen with
  | nil => exact Or.inl h
  | cons r rs ih =>
    rw [granted_cons]
    rcases ih h with hstep | ⟨a, ha, hk, ht⟩
    -- a blocked request leaves the memory; a granted one overwrites its key with its own time
    · by_cases hr : blocked key now window seen r = true
      · rw [step_blocked hr] at hstep
        exact Or.inl hstep
      · rw [Bool.not_eq_true] at hr
        rw [step_granted hr, Function.update_apply] at hstep
        split at hstep
        · rename_i hk
          exact Or.inr ⟨r, by simp [hr], hk.symm, Option.some.inj hstep⟩
        · exact Or.inl hstep
    · exact Or.inr ⟨a, List.mem_append_right _ ha, hk, ht⟩

/-- With an ordered clock the remembered time of a key only grows. -/
theorem seen_mono {seen : K → Option Nat} {rs : List α} {k : K} {t : Nat}
    (hclock : Clocked now happened rs) (hle : ∀ r ∈ rs, t ≤ now r) (h : seen k = some t) :
    ∃ t', run (step key now window) seen rs k = some t' ∧ t ≤ t' := by
  induction rs generalizing seen t with
  | nil => exact ⟨t, h, Nat.le_refl t⟩
  | cons r rs ih =>
    have hordered := List.pairwise_cons.1 hclock.ordered
    by_cases hr : blocked key now window seen r = false ∧ key r = k
    · have hseen : step key now window seen r k = some (now r) := by
        rw [step_granted hr.1, ← hr.2, Function.update_self]
      obtain ⟨t', ht', hle'⟩ := ih hclock.tail hordered.1 hseen
      exact ⟨t', ht', Nat.le_trans (hle r List.mem_cons_self) hle'⟩
    · apply ih hclock.tail (fun r' hr' => hle r' (List.mem_cons_of_mem r hr'))
      rw [step_of_not hr, h]

/-- The remembered time of a key is not before any grant of it. -/
theorem granted_le_seen {seen : K → Option Nat} {rs : List α} {a : α}
    (hclock : Clocked now happened rs) (ha : a ∈ granted key now window seen rs) :
    ∃ t, run (step key now window) seen rs (key a) = some t ∧ now a ≤ t := by
  induction rs generalizing seen with
  | nil => simp [granted] at ha
  | cons r rs ih =>
    rw [granted_cons, List.mem_append] at ha
    rcases ha with ha | ha
    · split at ha
      · simp at ha
      · rename_i hr
        rw [List.mem_singleton.1 ha, run_cons]
        apply seen_mono hclock.tail (List.pairwise_cons.1 hclock.ordered).1
        rw [step_granted (by simpa using hr), Function.update_self]
    · exact ih hclock.tail ha

/-- A request outside the window of the remembered grant leads to a grant of its key. -/
theorem exists_granted {seen : K → Option Nat} {rs : List α} {v : α} {prev : Nat}
    (hseen : seen (key v) = some prev) (hv : v ∈ rs) (hlate : window ≤ now v - prev) :
    ∃ a ∈ granted key now window seen rs, key a = key v := by
  induction rs generalizing seen with
  | nil => simp at hv
  | cons r rs ih =>
    rw [granted_cons]
    by_cases hr : blocked key now window seen r = false ∧ key r = key v
    · exact ⟨r, by simp [hr.1], hr.2⟩
    · have hstep : step key now window seen r (key v) = some prev := by
        rw [step_of_not hr, hseen]
      rcases List.mem_cons.1 hv with rfl | hv
      -- outside the window a request is granted, unless a grant of its key came before
      · exfalso
        refine hr ⟨?_, rfl⟩
        rw [blocked, hseen]
        exact decide_eq_false (Nat.not_lt.2 hlate)
      · obtain ⟨a, ha, hk⟩ := ih hstep hv
        exact ⟨a, List.mem_append_right _ ha, hk⟩

/-- A further grant of a key comes from a request outside the window of the remembered one. -/
theorem exists_late {seen : K → Option Nat} {rs : List α} {a : α} {prev : Nat}
    (hseen : seen (key a) = some prev) (ha : a ∈ granted key now window seen rs) :
    ∃ v ∈ rs, key v = key a ∧ window ≤ now v - prev := by
  induction rs generalizing seen with
  | nil => simp [granted] at ha
  | cons r rs ih =>
    by_cases hr : blocked key now window seen r = false ∧ key r = key a
    · refine ⟨r, List.mem_cons_self, hr.2, ?_⟩
      have hblocked := hr.1
      rw [blocked, hr.2, hseen] at hblocked
      exact Nat.not_lt.1 (of_decide_eq_false hblocked)
    · rw [granted_cons, List.mem_append] at ha
      have hstep : step key now window seen r (key a) = some prev := by
        rw [step_of_not hr, hseen]
      rcases ha with ha | ha
      · split at ha
        · simp at ha
        · rename_i hr'
          rw [List.mem_singleton.1 ha] at hr
          exact absurd ⟨by simpa using hr', rfl⟩ hr
      · obtain ⟨v, hv, hk, hlate⟩ := ih hstep ha
        exact ⟨v, List.mem_cons_of_mem r hv, hk, hlate⟩

/-- Every request is served exactly when each swallowed one is followed by a request of its key
outside the window of the grant that swallowed it. -/
theorem served_iff {rs : List α} (hclock : Clocked now happened rs) :
    Served key now window happened (fun _ => none) rs ↔
      ∀ pre u post prev, rs = pre ++ u :: post →
        Swallowed key now window happened (run (step key now window) (fun _ => none) pre) u prev →
          ∃ v ∈ post, key v = key u ∧ window ≤ now v - prev := by
  constructor
  · rintro hserved pre u post prev rfl ⟨hseen, hblocked, hold⟩
    obtain ⟨a, ha, hk, hle⟩ := hserved u (by simp)
    have hu : blocked key now window (run (step key now window) (fun _ => none) pre) u = true :=
      blocked_iff.2 ⟨prev, hseen, hblocked⟩
    rw [granted_append, granted_cons, hu, step_blocked hu, List.mem_append] at ha
    rcases ha with ha | ha
    · -- A grant before `u` is not after the remembered one, which is too old.
      obtain ⟨t, ht, hat⟩ := granted_le_seen hclock.append.1 ha
      rw [hk, hseen, Option.some.injEq] at ht
      omega
    · rw [← hk] at hseen
      obtain ⟨v, hv, hkv, hlate⟩ := exists_late hseen ha
      exact ⟨v, hv, hkv.trans hk, hlate⟩
  · intro hlate u hu
    obtain ⟨pre, post, rfl⟩ := List.append_of_mem hu
    rw [granted_append]
    by_cases hblocked : blocked key now window (run (step key now window) (fun _ => none) pre) u
    · obtain ⟨prev, hseen, hwindow⟩ := blocked_iff.1 hblocked
      -- a remembered grant no older than the happening serves the request itself
      rcases Nat.lt_or_ge prev (happened u) with hold | hfresh
      · obtain ⟨v, hv, hk, hlatev⟩ := hlate pre u post prev rfl ⟨hseen, hwindow, hold⟩
        rw [← hk] at hseen
        obtain ⟨a, ha, hka⟩ := exists_granted hseen hv hlatev
        refine ⟨a, List.mem_append_right _ ?_, hka.trans hk, ?_⟩
        · rw [granted_cons, step_blocked hblocked]
          exact List.mem_append_right _ ha
        · exact Nat.le_trans (hclock.happened u hu) (hclock.le_of_split (mem_of_granted ha))
      · obtain hnone | ⟨a, ha, hka, hat⟩ := exists_granted_of_seen hseen
        · simp at hnone
        · exact ⟨a, List.mem_append_left _ ha, hka, by omega⟩
    · refine ⟨u, List.mem_append_right _ ?_, rfl, hclock.happened u hu⟩
      rw [granted_cons]
      simp [hblocked]

/-! ## The grants of one key -/

theorem clocked_now {rs : List α} (h : rs.Pairwise fun a b => now a ≤ now b) :
    Clocked now now rs := ⟨fun _ _ => Nat.le_refl _, h⟩

/-- A grant comes a window after the remembered one of its key. -/
theorem granted_late {seen : K → Option Nat} {rs : List α} {a : α} {prev : Nat}
    (hclock : Clocked now happened rs) (hle : ∀ r ∈ rs, prev ≤ now r)
    (hseen : seen (key a) = some prev) (ha : a ∈ granted key now window seen rs) :
    prev + window ≤ now a := by
  induction rs generalizing seen prev with
  | nil => simp [granted] at ha
  | cons r rs ih =>
    have hordered := (List.pairwise_cons.1 hclock.ordered).1
    have hr := hle r List.mem_cons_self
    rw [granted_cons, List.mem_append] at ha
    by_cases hgrant : blocked key now window seen r = false ∧ key r = key a
    · -- a grant of the key, a window after the remembered one, is the next one remembered
      have hlate : prev + window ≤ now r := by
        have hblocked := hgrant.1
        rw [blocked, hgrant.2, hseen] at hblocked
        have hwindow := Nat.not_lt.1 (of_decide_eq_false hblocked)
        omega
      rcases ha with ha | ha
      · rw [hgrant.1] at ha
        rw [List.mem_singleton.1 ha]
        exact hlate
      · have hstep : step key now window seen r (key a) = some (now r) := by
          rw [step_granted hgrant.1, ← hgrant.2, Function.update_self]
        have hnext := ih hclock.tail hordered hstep ha
        omega
    · have hstep : step key now window seen r (key a) = some prev := by
        rw [step_of_not hgrant, hseen]
      rcases ha with ha | ha
      · split at ha
        · simp at ha
        · rename_i hnot
          rw [List.mem_singleton.1 ha] at hgrant
          exact absurd ⟨by simpa using hnot, rfl⟩ hgrant
      · exact ih hclock.tail (fun r' hr' => hle r' (List.mem_cons_of_mem r hr')) hstep ha

/-- Two grants of one key are at least a window apart. -/
theorem granted_spaced {rs : List α} (hclock : Clocked now happened rs) (seen : K → Option Nat) :
    (granted key now window seen rs).Pairwise fun a b =>
      key a = key b → now a + window ≤ now b := by
  induction rs generalizing seen with
  | nil => exact List.Pairwise.nil
  | cons r rs ih =>
    rw [granted_cons, List.pairwise_append]
    refine ⟨?_, ih hclock.tail _, ?_⟩
    · split <;> simp
    · intro a ha b hb hkey
      split at ha
      · simp at ha
      · rename_i hgrant
        obtain rfl := List.mem_singleton.1 ha
        refine granted_late hclock.tail (List.pairwise_cons.1 hclock.ordered).1 ?_ hb
        rw [step_granted (by simpa using hgrant), hkey, Function.update_self]

/-- A request is blocked exactly when a grant of its key is less than a window old. -/
theorem blocked_iff_granted {pre : List α} {u : α} (hclock : Clocked now happened pre) :
    blocked key now window (run (step key now window) (fun _ => none) pre) u = true ↔
      ∃ a ∈ granted key now window (fun _ => none) pre, key a = key u ∧ now u - now a < window := by
  rw [blocked_iff]
  constructor
  · rintro ⟨prev, hseen, hwindow⟩
    rcases exists_granted_of_seen hseen with hnone | ⟨a, ha, hkey, rfl⟩
    · simp at hnone
    · exact ⟨a, ha, hkey, hwindow⟩
  · rintro ⟨a, ha, hkey, hwindow⟩
    obtain ⟨t, ht, hle⟩ := granted_le_seen hclock ha
    exact ⟨t, hkey ▸ ht, by omega⟩

/-- The grants of a key are those of its own requests alone. -/
theorem granted_filter {seen seen' : K → Option Nat} {k : K} (h : seen k = seen' k)
    (rs : List α) :
    (granted key now window seen rs).filter (fun r => key r = k) =
      granted key now window seen' (rs.filter fun r => key r = k) := by
  induction rs generalizing seen seen' with
  | nil => rfl
  | cons r rs ih =>
    rw [granted_cons, List.filter_append]
    by_cases hk : key r = k
    · -- a request of the key meets the same memory in both lists
      have hblocked : blocked key now window seen r = blocked key now window seen' r := by
        rw [blocked, blocked, hk, h]
      have hstep : step key now window seen r k = step key now window seen' r k := by
        rw [step, step, hblocked]
        split
        · exact h
        · rw [hk, Function.update_self, Function.update_self]
      rw [List.filter_cons_of_pos (by simpa using hk), granted_cons, ih hstep, hblocked]
      split <;> simp [hk]
    · have hstep : step key now window seen r k = seen' k := by
        rw [step_of_not fun hgrant => hk hgrant.2, h]
      rw [List.filter_cons_of_neg (by simpa using hk), ih hstep]
      split <;> simp [hk]

/-- Requests with the same keys and times are granted alike. -/
theorem granted_forall₂ {β : Type u} {key' : β → K} {now' : β → Nat} {R : α → β → Prop}
    (hR : ∀ a b, R a b → key a = key' b ∧ now a = now' b) {rs : List α} {rs' : List β}
    (h : List.Forall₂ R rs rs') (seen : K → Option Nat) :
    List.Forall₂ R (granted key now window seen rs) (granted key' now' window seen rs') := by
  induction h generalizing seen with
  | nil => exact List.Forall₂.nil
  | @cons a b rs rs' hab _ ih =>
    obtain ⟨hkey, hnow⟩ := hR a b hab
    have hblocked : blocked key now window seen a = blocked key' now' window seen b := by
      rw [blocked, blocked, hkey, hnow]
    have hstep : step key now window seen a = step key' now' window seen b := by
      rw [step, step, hblocked, hkey, hnow]
    rw [granted, granted, hblocked, hstep]
    split
    · exact ih seen
    · exact List.Forall₂.cons hab (ih _)

end SkegRigging.Debounce
