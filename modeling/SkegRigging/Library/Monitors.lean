import Mathlib.Logic.Function.Basic
import SkegRigging.Library.Runs

/-!
# Calls over state behind locks

The shared state is split over locks `l : L`, and lock `l` guards a value of `σ l`. A call (`Code`)
takes one lock at a time: between an `acquire` and its `release` stands a `Section`, which reads and
changes the value behind that lock in as many steps as it likes. Code that touches a value without
its lock, that takes a second lock or that returns with a lock cannot be written down.

`step` is the machine in which the threads interleave at every single step, and `atomicStep` the one
in which an `acquire` runs its section to the release at once. The first refines the second with the
same history of invocations and answers (`run_refines`).
-/

set_option autoImplicit false

namespace SkegRigging.Monitors

variable {L T Op : Type} {σ : L → Type} {ρ : Type}

/-! ## Code -/

mutual

/-- The code of a call outside any section; it answers with a `ρ`. -/
inductive Code (σ : L → Type) (ρ : Type) : Type
  | ret (r : ρ)
  | acquire (l : L) (body : Section σ ρ l)

/-- The code of a call from a point where it holds the lock `l`. `next` sees the value before the
change. -/
inductive Section (σ : L → Type) (ρ : Type) : L → Type
  | act (l : L) (change : σ l → σ l) (next : σ l → Section σ ρ l) : Section σ ρ l
  | release (l : L) (rest : Code σ ρ) : Section σ ρ l

end

/-- Run a section to its release: the value it leaves, and the code after it. -/
def Section.finish {l : L} : Section σ ρ l → σ l → σ l × Code σ ρ
  | .act _ change next, x => (next x).finish (change x)
  | .release _ rest, x => (x, rest)

@[simp] theorem Section.finish_act {l : L} (change : σ l → σ l) (next : σ l → Section σ ρ l)
    (x : σ l) : (Section.act l change next).finish x = (next x).finish (change x) := rfl

@[simp] theorem Section.finish_release {l : L} (rest : Code σ ρ) (x : σ l) :
    (Section.release l rest).finish x = (x, rest) := rfl

/-! ## The machine -/

/-- What a client sees: the invocations and the answers of its calls. -/
inductive Visible (T Op ρ : Type)
  | invoked (t : T) (op : Op)
  | answered (t : T) (r : ρ)
  deriving DecidableEq, Repr

/-- A thread without a call, in a call outside its sections, or inside one of them. -/
inductive Thread (σ : L → Type) (ρ : Type)
  | idle
  | outside (code : Code σ ρ)
  | inside (l : L) (code : Section σ ρ l)

/-- The values behind the locks, the lock words, the threads and what was seen so far. -/
structure State (T Op : Type) (σ : L → Type) (ρ : Type) where
  shared : ∀ l, σ l
  owner : L → Option T
  threads : T → Thread σ ρ
  history : List (Visible T Op ρ)

/-- The scheduler's choices: a thread starts a call, or takes one step of the call it is in. -/
inductive Act (T Op : Type)
  | invoke (t : T) (op : Op)
  | run (t : T)
  deriving DecidableEq, Repr

/-- The machine before any call. -/
def start (shared : ∀ l, σ l) : State T Op σ ρ where
  shared := shared
  owner _ := none
  threads _ := .idle
  history := []

section Machine

variable [DecidableEq T] [DecidableEq L] (calls : Op → Code σ ρ)

def step (s : State T Op σ ρ) : Act T Op → State T Op σ ρ
  | .invoke t op =>
    match s.threads t with
    | .idle =>
      { s with
        threads := Function.update s.threads t (.outside (calls op))
        history := s.history ++ [.invoked t op] }
    | _ => s
  | .run t =>
    match s.threads t with
    | .idle => s
    | .outside (.ret r) =>
      { s with
        threads := Function.update s.threads t .idle
        history := s.history ++ [.answered t r] }
    | .outside (.acquire l body) =>
      match s.owner l with
      -- the lock is taken: the thread waits
      | some _ => s
      | none =>
        { s with
          owner := Function.update s.owner l (some t)
          threads := Function.update s.threads t (.inside l body) }
    | .inside l (.act _ change next) =>
      { s with
        shared := Function.update s.shared l (change (s.shared l))
        threads := Function.update s.threads t (.inside l (next (s.shared l))) }
    | .inside l (.release _ rest) =>
      { s with
        owner := Function.update s.owner l none
        threads := Function.update s.threads t (.outside rest) }

/-- What one step can do, with the steps it is outside the sections: itself or none. -/
inductive Trans (s : State T Op σ ρ) : Act T Op → List (Act T Op) → State T Op σ ρ → Prop
  -- an invocation inside a call, a step without a call, or a wait for a lock
  | idle {act : Act T Op} : Trans s act [] s
  | invoked {t : T} {op : Op} (h : s.threads t = .idle) :
      Trans s (.invoke t op) [.invoke t op]
        { s with
          threads := Function.update s.threads t (.outside (calls op))
          history := s.history ++ [.invoked t op] }
  | answered {t : T} {r : ρ} (h : s.threads t = .outside (.ret r)) :
      Trans s (.run t) [.run t]
        { s with
          threads := Function.update s.threads t .idle
          history := s.history ++ [.answered t r] }
  | acquired {t : T} {l : L} {body : Section σ ρ l}
      (h : s.threads t = .outside (.acquire l body)) (hfree : s.owner l = none) :
      Trans s (.run t) [.run t]
        { s with
          owner := Function.update s.owner l (some t)
          threads := Function.update s.threads t (.inside l body) }
  | acted {t : T} {l : L} {change : σ l → σ l} {next : σ l → Section σ ρ l}
      (h : s.threads t = .inside l (.act l change next)) :
      Trans s (.run t) []
        { s with
          shared := Function.update s.shared l (change (s.shared l))
          threads := Function.update s.threads t (.inside l (next (s.shared l))) }
  | released {t : T} {l : L} {rest : Code σ ρ}
      (h : s.threads t = .inside l (.release l rest)) :
      Trans s (.run t) []
        { s with
          owner := Function.update s.owner l none
          threads := Function.update s.threads t (.outside rest) }

theorem step_trans (s : State T Op σ ρ) (act : Act T Op) :
    ∃ shown, Trans calls s act shown (step calls s act) := by
  cases act with
  | invoke t op =>
    cases h : s.threads t with
    | idle =>
      simp only [step, h]
      exact ⟨_, Trans.invoked h⟩
    | outside code =>
      simp only [step, h]
      exact ⟨_, Trans.idle⟩
    | inside l code =>
      simp only [step, h]
      exact ⟨_, Trans.idle⟩
  | run t =>
    cases h : s.threads t with
    | idle =>
      simp only [step, h]
      exact ⟨_, Trans.idle⟩
    | outside code =>
      cases code with
      | ret r =>
        simp only [step, h]
        exact ⟨_, Trans.answered h⟩
      | acquire l body =>
        cases hl : s.owner l with
        | none =>
          simp only [step, h, hl]
          exact ⟨_, Trans.acquired h hl⟩
        | some u =>
          simp only [step, h, hl]
          exact ⟨_, Trans.idle⟩
    | inside l code =>
      cases code with
      | act _ change next =>
        simp only [step, h]
        exact ⟨_, Trans.acted h⟩
      | release _ rest =>
        simp only [step, h]
        exact ⟨_, Trans.released h⟩

theorem Trans.sublist {s s' : State T Op σ ρ} {act : Act T Op} {shown : List (Act T Op)}
    (h : Trans calls s act shown s') : shown.Sublist [act] := by
  cases h with
  | invoked h => exact List.Sublist.refl _
  | answered h => exact List.Sublist.refl _
  | acquired h hfree => exact List.Sublist.refl _
  | _ => exact List.nil_sublist _

end Machine

/-! ## The machine with atomic sections -/

/-- The state of the machine whose sections are atomic: no thread is ever inside one. -/
structure Atomic (T Op : Type) (σ : L → Type) (ρ : Type) where
  shared : ∀ l, σ l
  threads : T → Option (Code σ ρ)
  history : List (Visible T Op ρ)

/-- The machine with atomic sections before any call. -/
def atomicStart (shared : ∀ l, σ l) : Atomic T Op σ ρ where
  shared := shared
  threads _ := none
  history := []

section AtomicMachine

variable [DecidableEq T] [DecidableEq L] (calls : Op → Code σ ρ)

def atomicStep (s : Atomic T Op σ ρ) : Act T Op → Atomic T Op σ ρ
  | .invoke t op =>
    match s.threads t with
    | some _ => s
    | none =>
      { s with
        threads := Function.update s.threads t (some (calls op))
        history := s.history ++ [.invoked t op] }
  | .run t =>
    match s.threads t with
    | none => s
    | some (.ret r) =>
      { s with
        threads := Function.update s.threads t none
        history := s.history ++ [.answered t r] }
    | some (.acquire l body) =>
      { s with
        shared := Function.update s.shared l (body.finish (s.shared l)).1
        threads := Function.update s.threads t (some (body.finish (s.shared l)).2) }

end AtomicMachine

/-! ## The refinement -/

section Refinement

/-- The thread is inside a section of `l`. -/
def Thread.Holds (l : L) (th : Thread σ ρ) : Prop := ∃ code, th = .inside l code

theorem not_holds_idle (l : L) : ¬ (Thread.idle : Thread σ ρ).Holds l := by
  rintro ⟨c, hc⟩
  cases hc

theorem not_holds_outside (code : Code σ ρ) (l : L) : ¬ (Thread.outside code).Holds l := by
  rintro ⟨c, hc⟩
  cases hc

/-- The lock words say which thread is inside which section. -/
def Owned (s : State T Op σ ρ) : Prop := ∀ l t, s.owner l = some t ↔ (s.threads t).Holds l

/-- The atomic state `a` stands for `s`: a section that a thread is inside of has been run to its
end in `a`, and everything else is the same. -/
structure Refines (s : State T Op σ ρ) (a : Atomic T Op σ ρ) : Prop where
  owned : Owned s
  free : ∀ l, s.owner l = none → a.shared l = s.shared l
  idle : ∀ t, s.threads t = .idle → a.threads t = none
  outside : ∀ t code, s.threads t = .outside code → a.threads t = some code
  inside : ∀ t l code, s.threads t = .inside l code →
    a.shared l = (code.finish (s.shared l)).1 ∧ a.threads t = some (code.finish (s.shared l)).2
  history : a.history = s.history

theorem start_refines (shared : ∀ l, σ l) :
    Refines (start shared : State T Op σ ρ) (atomicStart shared) where
  owned l t := by simp [start, Thread.Holds]
  free l _ := rfl
  idle t _ := rfl
  outside t code h := by simp [start] at h
  inside t l code h := by simp [start] at h
  history := rfl

/-- Two threads are never inside sections of one lock. -/
theorem Owned.exclusive {s : State T Op σ ρ} (hs : Owned s) {l : L} {t u : T}
    (ht : (s.threads t).Holds l) (hu : (s.threads u).Holds l) : t = u := by
  have hto := (hs l t).2 ht
  have huo := (hs l u).2 hu
  rw [hto, Option.some.injEq] at huo
  exact huo

section Steps

variable [DecidableEq T]

/-- A thread moves on outside any section: a call begins or answers. -/
theorem Owned.outside {s : State T Op σ ρ} (hs : Owned s) {t : T} {th : Thread σ ρ}
    (hold : ∀ l, ¬ (s.threads t).Holds l) (hnew : ∀ l, ¬ th.Holds l)
    (history : List (Visible T Op ρ)) :
    Owned { s with threads := Function.update s.threads t th, history } := by
  intro l u
  dsimp only
  by_cases hu : u = t
  · subst hu
    rw [Function.update_self, hs l u]
    exact iff_of_false (hold l) (hnew l)
  · rw [Function.update_of_ne hu]
    exact hs l u

/-- A thread that holds `l` takes a step of its section. -/
theorem Owned.inside {s : State T Op σ ρ} (hs : Owned s) {t : T} {l : L} {code : Section σ ρ l}
    (hold : (s.threads t).Holds l) (shared : ∀ l, σ l) :
    Owned { s with shared, threads := Function.update s.threads t (.inside l code) } := by
  intro k u
  dsimp only
  by_cases hu : u = t
  · subst hu
    rw [Function.update_self, hs k u]
    -- before and after the step the lock of the thread is `l`
    obtain ⟨code', hcode'⟩ := hold
    constructor
    · rintro ⟨c, hc⟩
      rw [hcode'] at hc
      cases hc
      exact ⟨code, rfl⟩
    · rintro ⟨c, hc⟩
      cases hc
      exact ⟨code', hcode'⟩
  · rw [Function.update_of_ne hu]
    exact hs k u

variable [DecidableEq L]

theorem Owned.acquire {s : State T Op σ ρ} (hs : Owned s) {t : T} {l : L} {body : Section σ ρ l}
    (hold : ∀ k, ¬ (s.threads t).Holds k) (hfree : s.owner l = none) :
    Owned { s with
      owner := Function.update s.owner l (some t)
      threads := Function.update s.threads t (.inside l body) } := by
  intro k u
  dsimp only
  by_cases hu : u = t
  · subst hu
    rw [Function.update_self]
    by_cases hk : k = l
    · subst hk
      rw [Function.update_self]
      exact iff_of_true rfl ⟨body, rfl⟩
    · rw [Function.update_of_ne hk, hs k u]
      refine iff_of_false (hold k) ?_
      rintro ⟨c, hc⟩
      cases hc
      exact hk rfl
  · rw [Function.update_of_ne hu]
    by_cases hk : k = l
    · subst hk
      rw [Function.update_self, ← hs k u, hfree]
      simp [Ne.symm hu]
    · rw [Function.update_of_ne hk]
      exact hs k u

theorem Owned.release {s : State T Op σ ρ} (hs : Owned s) {t : T} {l : L} {rest : Code σ ρ}
    (hold : (s.threads t).Holds l) :
    Owned { s with
      owner := Function.update s.owner l none
      threads := Function.update s.threads t (.outside rest) } := by
  intro k u
  dsimp only
  by_cases hk : k = l
  · subst hk
    rw [Function.update_self]
    refine iff_of_false (by simp) ?_
    by_cases hu : u = t
    · subst hu
      rw [Function.update_self]
      rintro ⟨c, hc⟩
      cases hc
    · rw [Function.update_of_ne hu]
      intro hholds
      exact hu (hs.exclusive hholds hold)
  · rw [Function.update_of_ne hk, hs k u]
    by_cases hu : u = t
    · subst hu
      rw [Function.update_self]
      obtain ⟨code, hcode⟩ := hold
      constructor
      · rintro ⟨c, hc⟩
        rw [hcode] at hc
        cases hc
        exact absurd rfl hk
      · rintro ⟨c, hc⟩
        cases hc
    · rw [Function.update_of_ne hu]

theorem Trans.owned {calls : Op → Code σ ρ} {s s' : State T Op σ ρ} {act : Act T Op}
    {shown : List (Act T Op)} (h : Trans calls s act shown s') (hs : Owned s) : Owned s' := by
  cases h with
  | idle => exact hs
  | invoked h =>
    apply hs.outside _ (not_holds_outside _)
    rw [h]
    exact not_holds_idle
  | answered h =>
    apply hs.outside _ not_holds_idle
    rw [h]
    exact not_holds_outside _
  | acquired h hfree =>
    apply hs.acquire _ hfree
    rw [h]
    exact not_holds_outside _
  | acted h => exact hs.inside ⟨_, h⟩ _
  | released h => exact hs.release ⟨_, h⟩

end Steps

/-! ### One step -/

section OneStep

variable [DecidableEq T]

/-- A step of a thread outside any section, by which neither machine changes a shared value. -/
theorem Refines.outsideStep {s : State T Op σ ρ} {a : Atomic T Op σ ρ} (hs : Refines s a) {t : T}
    {th : Thread σ ρ} {code : Option (Code σ ρ)} (hold : ∀ l, ¬ (s.threads t).Holds l)
    (hidle : th = .idle → code = none) (houtside : ∀ c, th = .outside c → code = some c)
    (hnew : ∀ l, ¬ th.Holds l) (seen : List (Visible T Op ρ)) :
    Refines
      { s with threads := Function.update s.threads t th, history := s.history ++ seen }
      { a with threads := Function.update a.threads t code, history := a.history ++ seen } where
  owned := hs.owned.outside hold hnew _
  free := hs.free
  idle u hu := by
    by_cases hut : u = t
    · subst hut
      simp only [Function.update_self] at hu ⊢
      exact hidle hu
    · simp only [Function.update_of_ne hut] at hu ⊢
      exact hs.idle u hu
  outside u c hu := by
    by_cases hut : u = t
    · subst hut
      simp only [Function.update_self] at hu ⊢
      exact houtside c hu
    · simp only [Function.update_of_ne hut] at hu ⊢
      exact hs.outside u c hu
  inside u l c hu := by
    by_cases hut : u = t
    · subst hut
      simp only [Function.update_self] at hu
      exact absurd ⟨c, hu⟩ (hnew l)
    · simp only [Function.update_of_ne hut] at hu ⊢
      exact hs.inside u l c hu
  history := by rw [hs.history]

variable [DecidableEq L]

/-- When a thread takes a lock, the atomic machine runs the section. -/
theorem Refines.acquireStep {s : State T Op σ ρ} {a : Atomic T Op σ ρ} (hs : Refines s a) {t : T}
    {l : L} {body : Section σ ρ l} (ht : s.threads t = .outside (.acquire l body))
    (hfree : s.owner l = none) :
    Refines
      { s with
        owner := Function.update s.owner l (some t)
        threads := Function.update s.threads t (.inside l body) }
      { a with
        shared := Function.update a.shared l (body.finish (a.shared l)).1
        threads := Function.update a.threads t (some (body.finish (a.shared l)).2) } where
  owned := by
    apply hs.owned.acquire _ hfree
    rintro k ⟨c, hc⟩
    rw [ht] at hc
    cases hc
  free k hk := by
    by_cases hkl : k = l
    · subst hkl
      simp at hk
    · simp only [Function.update_of_ne hkl] at hk ⊢
      exact hs.free k hk
  idle u hu := by
    by_cases hut : u = t
    · subst hut
      simp at hu
    · simp only [Function.update_of_ne hut] at hu ⊢
      exact hs.idle u hu
  outside u c hu := by
    by_cases hut : u = t
    · subst hut
      simp at hu
    · simp only [Function.update_of_ne hut] at hu ⊢
      exact hs.outside u c hu
  inside u k c hu := by
    by_cases hut : u = t
    · subst hut
      simp only [Function.update_self, Thread.inside.injEq] at hu
      obtain ⟨rfl, hc⟩ := hu
      cases hc
      simp only [Function.update_self]
      rw [hs.free l hfree]
      exact ⟨rfl, rfl⟩
    · simp only [Function.update_of_ne hut] at hu ⊢
      -- the lock of another thread is not `l`, which was free
      have hkl : k ≠ l := by
        rintro rfl
        have howner := (hs.owned k u).2 ⟨c, hu⟩
        rw [hfree] at howner
        cases howner
      simp only [Function.update_of_ne hkl]
      exact hs.inside u k c hu
  history := hs.history

/-- A step inside a section is invisible to the atomic machine. -/
theorem Refines.actStep {s : State T Op σ ρ} {a : Atomic T Op σ ρ} (hs : Refines s a) {t : T}
    {l : L} {change : σ l → σ l} {next : σ l → Section σ ρ l}
    (ht : s.threads t = .inside l (.act l change next)) :
    Refines
      { s with
        shared := Function.update s.shared l (change (s.shared l))
        threads := Function.update s.threads t (.inside l (next (s.shared l))) } a where
  owned := hs.owned.inside ⟨_, ht⟩ _
  free k hk := by
    have hkl : k ≠ l := by
      rintro rfl
      have howner := (hs.owned k t).2 ⟨_, ht⟩
      rw [hk] at howner
      cases howner
    simp only [Function.update_of_ne hkl]
    exact hs.free k hk
  idle u hu := by
    by_cases hut : u = t
    · subst hut
      simp at hu
    · simp only [Function.update_of_ne hut] at hu
      exact hs.idle u hu
  outside u c hu := by
    by_cases hut : u = t
    · subst hut
      simp at hu
    · simp only [Function.update_of_ne hut] at hu
      exact hs.outside u c hu
  inside u k c hu := by
    by_cases hut : u = t
    · subst hut
      simp only [Function.update_self, Thread.inside.injEq] at hu
      obtain ⟨rfl, hc⟩ := hu
      cases hc
      simp only [Function.update_self]
      exact hs.inside u l _ ht
    · simp only [Function.update_of_ne hut] at hu
      have hkl : k ≠ l := by
        rintro rfl
        exact hut (hs.owned.exclusive ⟨c, hu⟩ ⟨_, ht⟩)
      simp only [Function.update_of_ne hkl]
      exact hs.inside u k c hu
  history := hs.history

/-- So is the release. -/
theorem Refines.releaseStep {s : State T Op σ ρ} {a : Atomic T Op σ ρ} (hs : Refines s a) {t : T}
    {l : L} {rest : Code σ ρ} (ht : s.threads t = .inside l (.release l rest)) :
    Refines
      { s with
        owner := Function.update s.owner l none
        threads := Function.update s.threads t (.outside rest) } a where
  owned := hs.owned.release ⟨_, ht⟩
  free k hk := by
    by_cases hkl : k = l
    · subst hkl
      exact (hs.inside t k _ ht).1
    · simp only [Function.update_of_ne hkl] at hk
      exact hs.free k hk
  idle u hu := by
    by_cases hut : u = t
    · subst hut
      simp at hu
    · simp only [Function.update_of_ne hut] at hu
      exact hs.idle u hu
  outside u c hu := by
    by_cases hut : u = t
    · subst hut
      simp only [Function.update_self, Thread.outside.injEq] at hu
      subst hu
      exact (hs.inside u l _ ht).2
    · simp only [Function.update_of_ne hut] at hu
      exact hs.outside u c hu
  inside u k c hu := by
    by_cases hut : u = t
    · subst hut
      simp at hu
    · simp only [Function.update_of_ne hut] at hu
      exact hs.inside u k c hu
  history := hs.history

/-- One step of the machine is no step, or the same step, of the atomic one. -/
theorem Trans.refines {calls : Op → Code σ ρ} {s s' : State T Op σ ρ} {act : Act T Op}
    {shown : List (Act T Op)} (h : Trans calls s act shown s') {a : Atomic T Op σ ρ}
    (hs : Refines s a) : Refines s' (Runs.run (atomicStep calls) a shown) := by
  cases h with
  | idle => exact hs
  | @invoked t op h =>
    simp only [Runs.run_cons, Runs.run_nil, atomicStep, hs.idle t h]
    apply hs.outsideStep
    · rw [h]
      exact not_holds_idle
    · simp
    · simp
    · exact not_holds_outside _
  | @answered t r h =>
    simp only [Runs.run_cons, Runs.run_nil, atomicStep, hs.outside t _ h]
    apply hs.outsideStep
    · rw [h]
      exact not_holds_outside _
    · simp
    · simp
    · exact not_holds_idle
  | @acquired t l body h hfree =>
    simp only [Runs.run_cons, Runs.run_nil, atomicStep, hs.outside t _ h]
    exact hs.acquireStep h hfree
  | acted h => exact hs.actStep h
  | released h => exact hs.releaseStep h

/-- Every run of the machine is a run of the atomic machine, with the same history: the acts of the
second are those of the first without the waits and the steps inside the sections. -/
theorem run_refines (calls : Op → Code σ ρ) (shared : ∀ l, σ l) (acts : List (Act T Op)) :
    ∃ acts', acts'.Sublist acts ∧
      Refines (Runs.run (step calls) (start shared) acts)
        (Runs.run (atomicStep calls) (atomicStart shared) acts') := by
  induction acts using List.reverseRecOn with
  | nil => exact ⟨[], List.Sublist.slnil, start_refines shared⟩
  | append_singleton acts act ih =>
    obtain ⟨acts', hsub, href⟩ := ih
    obtain ⟨shown, htrans⟩ := step_trans calls (Runs.run (step calls) (start shared) acts) act
    refine ⟨acts' ++ shown, hsub.append htrans.sublist, ?_⟩
    rw [Runs.run_append, Runs.run_append]
    exact htrans.refines href

end OneStep

end Refinement

end SkegRigging.Monitors
