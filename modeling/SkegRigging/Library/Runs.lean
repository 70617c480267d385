import Mathlib.Data.List.Infix

/-!
# Runs of a deterministic machine

`run step s ops` applies a list of operations. `EachStep step C s ops` says that every operation
satisfies `C` in the state it is applied to, and `EachState step P s ops` that `P` holds in the
first state and after every operation. The induction over a run is made once, in
`eachState_of_step`; `eachState_iff_eachStep` is the form for a condition that is also necessary.
-/

set_option autoImplicit false

namespace SkegRigging.Runs

universe u v

variable {State : Type u} {Op : Type v} (step : State → Op → State)

/-- The state after the operations. -/
def run (s : State) (ops : List Op) : State := ops.foldl step s

/-- Every operation satisfies `C` in the state it is applied to. -/
def EachStep (C : State → Op → Prop) : State → List Op → Prop
  | _, [] => True
  | s, o :: os => C s o ∧ EachStep C (step s o) os

/-- `P` holds in the first state and after every operation. -/
def EachState (P : State → Prop) : State → List Op → Prop
  | s, [] => P s
  | s, o :: os => P s ∧ EachState P (step s o) os

/-- Every operation of a run beside the state it is applied to. -/
def trace : State → List Op → List (State × Op)
  | _, [] => []
  | s, o :: os => (s, o) :: trace (step s o) os

@[simp] theorem run_nil (s : State) : run step s [] = s := rfl

@[simp] theorem run_cons (s : State) (o : Op) (os : List Op) :
    run step s (o :: os) = run step (step s o) os := rfl

@[simp] theorem run_append (s : State) (os os' : List Op) :
    run step s (os ++ os') = run step (run step s os) os' := by
  simp [run, List.foldl_append]

@[simp] theorem trace_nil (s : State) : trace step s [] = ([] : List (State × Op)) := rfl

@[simp] theorem trace_cons (s : State) (o : Op) (os : List Op) :
    trace step s (o :: os) = (s, o) :: trace step (step s o) os := rfl

instance EachStep.decidable {C : State → Op → Prop} [∀ s o, Decidable (C s o)] :
    ∀ s ops, Decidable (EachStep step C s ops)
  | _, [] => isTrue trivial
  | s, o :: os =>
    have : Decidable (EachStep step C (step s o) os) := EachStep.decidable (step s o) os
    inferInstanceAs (Decidable (C s o ∧ EachStep step C (step s o) os))

theorem EachState.head {P : State → Prop} {s : State} {ops : List Op}
    (h : EachState step P s ops) : P s := by
  cases ops with
  | nil => exact h
  | cons o os => exact h.1

/-- A property of every state of a run is a property of the state after every prefix. -/
theorem eachState_iff {P : State → Prop} {s : State} {ops : List Op} :
    EachState step P s ops ↔ ∀ pre, pre <+: ops → P (run step s pre) := by
  induction ops generalizing s with
  | nil =>
    constructor
    · intro h pre hpre
      rw [List.prefix_nil.1 hpre]
      exact h
    · intro h
      exact h [] List.nil_prefix
  | cons o os ih =>
    constructor
    · rintro ⟨hs, hrest⟩ pre hpre
      rcases List.prefix_cons_iff.1 hpre with rfl | ⟨pre', rfl, hpre'⟩
      · exact hs
      · exact ih.1 hrest pre' hpre'
    · intro h
      refine ⟨h [] List.nil_prefix, ih.2 ?_⟩
      intro pre hpre
      exact h (o :: pre) (List.prefix_cons_iff.2 (Or.inr ⟨pre, rfl, hpre⟩))

/-- A condition on every step of a run is a condition on each operation after every prefix. -/
theorem eachStep_iff {C : State → Op → Prop} {s : State} {ops : List Op} :
    EachStep step C s ops ↔ ∀ pre o, pre ++ [o] <+: ops → C (run step s pre) o := by
  induction ops generalizing s with
  | nil =>
    constructor
    · intro _ pre o hpre
      have := List.prefix_nil.1 hpre
      simp at this
    · intro _
      exact trivial
  | cons a os ih =>
    constructor
    · rintro ⟨ha, hrest⟩ pre o hpre
      cases pre with
      | nil =>
        have hoa : o = a := by simpa using hpre
        subst hoa
        exact ha
      | cons p pre' =>
        rw [List.cons_append, List.cons_prefix_cons] at hpre
        obtain ⟨rfl, hpre'⟩ := hpre
        exact ih.1 hrest pre' o hpre'
    · intro h
      refine ⟨h [] a (by simp), ih.2 ?_⟩
      intro pre o hpre
      exact h (a :: pre) o (by rw [List.cons_append, List.cons_prefix_cons]; exact ⟨rfl, hpre⟩)

theorem EachStep.append {C : State → Op → Prop} {s : State} {os os' : List Op}
    (h : EachStep step C s (os ++ os')) :
    EachStep step C s os ∧ EachStep step C (run step s os) os' := by
  induction os generalizing s with
  | nil => exact ⟨trivial, h⟩
  | cons o os ih =>
    obtain ⟨h1, h2⟩ := ih h.2
    exact ⟨⟨h.1, h1⟩, h2⟩

theorem EachStep.restrict {C : State → Op → Prop} {s : State} {pre ops : List Op}
    (h : EachStep step C s ops) (hpre : pre <+: ops) : EachStep step C s pre := by
  obtain ⟨post, rfl⟩ := hpre
  exact (h.append step).1

theorem eachStep_of_forall {C : State → Op → Prop} (h : ∀ s o, C s o) (s : State)
    (ops : List Op) : EachStep step C s ops := by
  induction ops generalizing s with
  | nil => trivial
  | cons o os ih => exact ⟨h s o, ih (step s o)⟩

theorem EachStep.imp {C D : State → Op → Prop} (h : ∀ s o, C s o → D s o) {s : State}
    {ops : List Op} (hC : EachStep step C s ops) : EachStep step D s ops := by
  induction ops generalizing s with
  | nil => trivial
  | cons o os ih => exact ⟨h s o hC.1, ih hC.2⟩

theorem EachState.imp {P Q : State → Prop} (h : ∀ s, P s → Q s) {s : State} {ops : List Op}
    (hP : EachState step P s ops) : EachState step Q s ops := by
  induction ops generalizing s with
  | nil => exact h s hP
  | cons o os ih => exact ⟨h s hP.1, ih hP.2⟩

/-- An invariant of the steps that satisfy `C` holds in every state of a run of such steps. -/
theorem eachState_of_step {Inv : State → Prop} {C : State → Op → Prop}
    (hstep : ∀ s o, Inv s → C s o → Inv (step s o)) {s : State} {ops : List Op}
    (hs : Inv s) (h : EachStep step C s ops) : EachState step Inv s ops := by
  induction ops generalizing s with
  | nil => exact hs
  | cons o os ih => exact ⟨hs, ih (hstep s o hs h.1) h.2⟩

/-- What a step that satisfies `C` does from a state in the invariant, every step of a run does. -/
theorem eachStep_of_step {Inv : State → Prop} {C D : State → Op → Prop}
    (hstep : ∀ s o, Inv s → C s o → Inv (step s o)) (hD : ∀ s o, Inv s → C s o → D s o) {s : State}
    {ops : List Op} (hs : Inv s) (h : EachStep step C s ops) : EachStep step D s ops := by
  induction ops generalizing s with
  | nil => trivial
  | cons o os ih => exact ⟨hD s o hs h.1, ih (hstep s o hs h.1) h.2⟩

/-- An invariant of the steps that satisfy `C` holds at the end of a run of such steps. -/
theorem run_of_step {Inv : State → Prop} {C : State → Op → Prop}
    (hstep : ∀ s o, Inv s → C s o → Inv (step s o)) {s : State} {ops : List Op}
    (hs : Inv s) (h : EachStep step C s ops) : Inv (run step s ops) := by
  induction ops generalizing s with
  | nil => exact hs
  | cons o os ih => exact ih (hstep s o hs h.1) h.2

/-- An invariant of every step holds at the end of every run. -/
theorem run_invariant {Inv : State → Prop} (hstep : ∀ s o, Inv s → Inv (step s o)) {s : State}
    (hs : Inv s) (ops : List Op) : Inv (run step s ops) :=
  run_of_step step (C := fun _ _ => True) (fun s o hi _ => hstep s o hi) hs
    (eachStep_of_forall step (fun _ _ => trivial) s ops)

/-- When, from a state satisfying `Inv` and `P`, a step allowed by `A` keeps `P` exactly if it
satisfies `D`, then along a run of allowed steps `P` holds in every state exactly if `D` holds of
every step. -/
theorem eachState_iff_eachStep {Inv P : State → Prop} {A D : State → Op → Prop}
    (hinv : ∀ s o, Inv s → A s o → Inv (step s o))
    (hstep : ∀ s o, Inv s → P s → A s o → (P (step s o) ↔ D s o)) {s : State} {ops : List Op}
    (hs : Inv s) (hp : P s) (hA : EachStep step A s ops) :
    EachState step P s ops ↔ EachStep step D s ops := by
  induction ops generalizing s with
  | nil => exact ⟨fun _ => trivial, fun _ => hp⟩
  | cons o os ih =>
    -- the step decides `P` of the next state, and the rest of the run starts there
    have hiff := hstep s o hs hp hA.1
    constructor
    · rintro ⟨-, hrest⟩
      have hp' : P (step s o) := hrest.head step
      exact ⟨hiff.1 hp', (ih (hinv s o hs hA.1) hp' hA.2).1 hrest⟩
    · rintro ⟨hd, hrest⟩
      have hp' : P (step s o) := hiff.2 hd
      exact ⟨hp, (ih (hinv s o hs hA.1) hp' hA.2).2 hrest⟩

end SkegRigging.Runs
