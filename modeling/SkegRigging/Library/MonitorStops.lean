import SkegRigging.Library.Monitors

/-!
# Stopping a machine inside its sections

A crash may stop the threads at any step, inside their sections too. When each section shows one
change through `view` (`Code.Jumps`), what the stopped machine shows is what some run of the atomic
machine shows, and that run has the history of the stopped one (`run_view`). A section that was
begun and has not shown its change is not part of it.
-/

set_option autoImplicit false

namespace SkegRigging.Monitors

variable {L T Op : Type} {σ : L → Type} {ρ : Type}

section Views

variable {D : L → Type} (view : ∀ l, σ l → D l)

mutual

/-- In every section of the rest of the call, each step leaves the view of the value as it is or
takes it to what the section will leave. -/
def Code.Jumps : Code σ ρ → Prop
  | .ret _ => True
  | .acquire _ body => ∀ x, body.Jumps x

def Section.Jumps : {l : L} → Section σ ρ l → σ l → Prop
  | _, .act l change next, x =>
    (view l (change x) = view l x ∨ view l (change x) = view l ((next x).finish (change x)).1) ∧
      (next x).Jumps (change x)
  | _, .release _ rest, _ => rest.Jumps

end

/-- The rest of every call keeps to single jumps. -/
structure Jumping (s : State T Op σ ρ) : Prop where
  outside : ∀ t code, s.threads t = .outside code → code.Jumps view
  inside : ∀ t l code, s.threads t = .inside l code → code.Jumps view (s.shared l)

/-- `b` is `a` but for the value behind `l` and the code of `t`. -/
structure Behind (l : L) (t : T) (b a : Atomic T Op σ ρ) : Prop where
  shared : ∀ k, k ≠ l → b.shared k = a.shared k
  threads : ∀ u, u ≠ t → b.threads u = a.threads u
  history : b.history = a.history

variable [DecidableEq T]

/-- Two families that agree but at `t` agree there after one update of both. -/
theorem agree_update {X : Type} {f g : T → X} {t : T} (h : ∀ v, v ≠ t → f v = g v) (u : T) (x : X)
    (v : T) (hv : v ≠ t) : Function.update f u x v = Function.update g u x v := by
  by_cases hvu : v = u
  · subst hvu
    rw [Function.update_self, Function.update_self]
  · rw [Function.update_of_ne hvu, Function.update_of_ne hvu, h v hv]

section Move

variable {view}

theorem Jumping.move {s s' : State T Op σ ρ} (hs : Jumping view s) {t : T} {th : Thread σ ρ}
    (hthreads : s'.threads = Function.update s.threads t th) (hshared : s'.shared = s.shared)
    (houtside : ∀ code, th = .outside code → code.Jumps view)
    (hinside : ∀ l code, th = .inside l code → code.Jumps view (s.shared l)) :
    Jumping view s' where
  outside u code hu := by
    rw [hthreads] at hu
    by_cases hut : u = t
    · subst hut
      rw [Function.update_self] at hu
      exact houtside code hu
    · rw [Function.update_of_ne hut] at hu
      exact hs.outside u code hu
  inside u l code hu := by
    rw [hthreads] at hu
    rw [hshared]
    by_cases hut : u = t
    · subst hut
      rw [Function.update_self] at hu
      exact hinside l code hu
    · rw [Function.update_of_ne hut] at hu
      exact hs.inside u l code hu

end Move

variable [DecidableEq L]

/-- The view of the value behind `l` is that of `a`, or a thread is inside a section of `l` whose
change does not show yet, and the view is that of a run in which the section has not begun. -/
inductive Shows (calls : Op → Code σ ρ) (shared : ∀ l, σ l) (l : L) (s : State T Op σ ρ)
    (a : Atomic T Op σ ρ) (acts : List (Act T Op)) : Prop
  | after (hview : view l (s.shared l) = view l (a.shared l))
  | before {t : T} {acts' : List (Act T Op)} (hsub : acts'.Sublist acts)
      (ht : (s.threads t).Holds l)
      (hview : view l (s.shared l) =
        view l ((Runs.run (atomicStep calls) (atomicStart shared) acts').shared l))
      (hbehind : Behind l t (Runs.run (atomicStep calls) (atomicStart shared) acts') a)

variable {view}

theorem Trans.jumping {calls : Op → Code σ ρ} (hcalls : ∀ op, (calls op).Jumps view)
    {s s' : State T Op σ ρ} {act : Act T Op} {shown : List (Act T Op)}
    (h : Trans calls s act shown s') (howned : Owned s) (hs : Jumping view s) :
    Jumping view s' := by
  cases h with
  | idle => exact hs
  | @invoked t op h =>
    refine hs.move rfl rfl ?_ ?_
    · intro code hcode
      cases hcode
      exact hcalls op
    · intro l code hcode
      cases hcode
  | @answered t r h =>
    refine hs.move rfl rfl ?_ ?_
    · intro code hcode
      cases hcode
    · intro l code hcode
      cases hcode
  | @acquired t l body h hfree =>
    refine hs.move rfl rfl ?_ ?_
    · intro code hcode
      cases hcode
    · intro k code hcode
      cases hcode
      exact hs.outside t _ h _
  | @acted t l change next h =>
    refine ⟨?_, ?_⟩
    · intro u code hu
      by_cases hut : u = t
      · subst hut
        simp at hu
      · simp only [Function.update_of_ne hut] at hu
        exact hs.outside u code hu
    · intro u k code hu
      by_cases hut : u = t
      · subst hut
        simp only [Function.update_self, Thread.inside.injEq] at hu
        obtain ⟨rfl, hc⟩ := hu
        cases hc
        simp only [Function.update_self]
        exact (hs.inside u l _ h).2
      · simp only [Function.update_of_ne hut] at hu
        have hkl : k ≠ l := by
          rintro rfl
          exact hut (howned.exclusive ⟨code, hu⟩ ⟨_, h⟩)
        simp only [Function.update_of_ne hkl]
        exact hs.inside u k code hu
  | @released t l rest h =>
    refine hs.move rfl rfl ?_ ?_
    · intro code hcode
      cases hcode
      exact hs.inside t l _ h
    · intro k code hcode
      cases hcode

/-- A step that does not take `l` keeps the value behind it. -/
theorem atomicStep_shared (calls : Op → Code σ ρ) {l : L} {u : T} {a : Atomic T Op σ ρ}
    {act : Act T Op} (hact : act = .run u ∨ ∃ op, act = .invoke u op)
    (hother : ∀ body, a.threads u ≠ some (.acquire l body)) :
    (atomicStep calls a act).shared l = a.shared l := by
  rcases hact with rfl | ⟨op, rfl⟩
  · cases hcode : a.threads u with
    | none => simp only [atomicStep, hcode]
    | some code =>
      cases code with
      | ret r => simp only [atomicStep, hcode]
      | acquire k body =>
        have hlk : l ≠ k := by
          rintro rfl
          exact hother body hcode
        simp only [atomicStep, hcode]
        exact Function.update_of_ne hlk _ _
  · cases hcode : a.threads u with
    | none => simp only [atomicStep, hcode]
    | some code => simp only [atomicStep, hcode]

/-- A step of another thread that does not take `l` keeps two states behind each other. -/
theorem Behind.step (calls : Op → Code σ ρ) {l : L} {t u : T} {b a : Atomic T Op σ ρ}
    (h : Behind l t b a) (hu : u ≠ t) {act : Act T Op}
    (hact : act = .run u ∨ ∃ op, act = .invoke u op)
    (hother : ∀ body, a.threads u ≠ some (.acquire l body)) :
    Behind l t (atomicStep calls b act) (atomicStep calls a act) := by
  have hthread := h.threads u hu
  rcases hact with rfl | ⟨op, rfl⟩
  · cases hcode : a.threads u with
    | none =>
      rw [hcode] at hthread
      simpa only [atomicStep, hcode, hthread] using h
    | some code =>
      rw [hcode] at hthread
      cases code with
      | ret r =>
        simp only [atomicStep, hcode, hthread]
        exact ⟨h.shared, agree_update h.threads u _, by rw [h.history]⟩
      | acquire k body =>
        have hkl : k ≠ l := by
          rintro rfl
          exact hother body hcode
        simp only [atomicStep, hcode, hthread]
        refine ⟨?_, ?_, h.history⟩
        · intro j hj
          dsimp only
          by_cases hjk : j = k
          · subst hjk
            rw [Function.update_self, Function.update_self, h.shared j hj]
          · rw [Function.update_of_ne hjk, Function.update_of_ne hjk, h.shared j hj]
        · rw [h.shared k hkl]
          exact agree_update h.threads u _
  · cases hcode : a.threads u with
    | some code =>
      rw [hcode] at hthread
      simpa only [atomicStep, hcode, hthread] using h
    | none =>
      rw [hcode] at hthread
      simp only [atomicStep, hcode, hthread]
      exact ⟨h.shared, agree_update h.threads u _, by rw [h.history]⟩

section Shows

variable {calls : Op → Code σ ρ} {shared : ∀ l, σ l} {l : L} {s s' : State T Op σ ρ}

/-- A step of another thread, which touches neither `l` nor the value behind it. -/
theorem Shows.other {a : Atomic T Op σ ρ} {acts : List (Act T Op)}
    (hs : Shows view calls shared l s a acts) {u : T} {act : Act T Op}
    (hact : act = .run u ∨ ∃ op, act = .invoke u op) (hu : ¬ (s.threads u).Holds l)
    (hother : ∀ body, a.threads u ≠ some (.acquire l body)) (hshared : s'.shared l = s.shared l)
    (hkeep : ∀ t, t ≠ u → s'.threads t = s.threads t) :
    Shows view calls shared l s' (atomicStep calls a act) (acts ++ [act]) := by
  cases hs with
  | after hview =>
    apply Shows.after
    rw [hshared, atomicStep_shared calls hact hother]
    exact hview
  | @before t acts' hsub ht hview hbehind =>
    have htu : u ≠ t := by
      rintro rfl
      exact hu ht
    -- the run without the section takes the same step
    have hother' : ∀ body, (Runs.run (atomicStep calls) (atomicStart shared) acts').threads u ≠
        some (.acquire l body) := by
      rw [hbehind.threads u htu]
      exact hother
    have hsub' : (acts' ++ [act]).Sublist (acts ++ [act]) := hsub.append (List.Sublist.refl [act])
    apply Shows.before hsub'
    · rw [hkeep t (Ne.symm htu)]
      exact ht
    · rw [hshared, hview, Runs.run_append, Runs.run_cons, Runs.run_nil,
        atomicStep_shared calls hact hother']
    · rw [Runs.run_append]
      exact hbehind.step calls htu hact hother

/-- A step that changes nothing here. -/
theorem Shows.keep {a : Atomic T Op σ ρ} {acts : List (Act T Op)}
    (hs : Shows view calls shared l s a acts) (hshared : s'.shared l = s.shared l)
    (hkeep : ∀ t, (s.threads t).Holds l → (s'.threads t).Holds l) :
    Shows view calls shared l s' a acts := by
  cases hs with
  | after hview =>
    apply Shows.after
    rw [hshared]
    exact hview
  | before hsub ht hview hbehind =>
    apply Shows.before hsub (hkeep _ ht) _ hbehind
    rw [hshared]
    exact hview

/-- The thread that takes `l` begins a section, which shows nothing yet. -/
theorem Shows.acquire {acts : List (Act T Op)}
    (href : Refines s (Runs.run (atomicStep calls) (atomicStart shared) acts)) {t : T}
    {body : Section σ ρ l} (h : s.threads t = .outside (.acquire l body))
    (hfree : s.owner l = none) :
    Shows view calls shared l
      { s with
        owner := Function.update s.owner l (some t)
        threads := Function.update s.threads t (.inside l body) }
      (atomicStep calls (Runs.run (atomicStep calls) (atomicStart shared) acts) (.run t))
      (acts ++ [.run t]) := by
  have hview := (href.free l hfree).symm
  generalize ha : Runs.run (atomicStep calls) (atomicStart shared) acts = a at href hview
  apply Shows.before (List.sublist_append_left acts [.run t])
  · exact ⟨body, Function.update_self _ _ _⟩
  · rw [ha]
    exact congrArg (view l) hview
  · rw [ha]
    simp only [atomicStep, href.outside t _ h]
    refine ⟨?_, ?_, rfl⟩
    · intro k hk
      exact (Function.update_of_ne hk _ _).symm
    · intro u hu
      exact (Function.update_of_ne hu _ _).symm

/-- A step of the thread that holds `l`: it shows nothing, or it shows what its section leaves. -/
theorem Shows.act {a : Atomic T Op σ ρ} {acts : List (Act T Op)} (hjump : Jumping view s)
    (href : Refines s a) (hs : Shows view calls shared l s a acts) {t : T} {change : σ l → σ l}
    {next : σ l → Section σ ρ l} (h : s.threads t = .inside l (.act l change next)) :
    Shows view calls shared l
      { s with
        shared := Function.update s.shared l (change (s.shared l))
        threads := Function.update s.threads t (.inside l (next (s.shared l))) } a acts := by
  obtain ⟨hone, -⟩ := hjump.inside t l _ h
  have hend := (href.inside t l _ h).1
  rcases hone with hsame | hnew
  · cases hs with
    | after hview =>
      apply Shows.after
      dsimp only
      rw [Function.update_self, hsame]
      exact hview
    | @before u acts' hsub hu hview hbehind =>
      -- only one thread holds the lock
      have hut : u = t := href.owned.exclusive hu ⟨_, h⟩
      subst hut
      apply Shows.before hsub _ _ hbehind
      · exact ⟨_, Function.update_self _ _ _⟩
      · dsimp only
        rw [Function.update_self, hsame]
        exact hview
  · apply Shows.after
    dsimp only
    rw [Function.update_self, hnew, hend]
    rfl

theorem Trans.shows {act : Act T Op} {shown acts : List (Act T Op)}
    (h : Trans calls s act shown s') (hjump : Jumping view s)
    (href : Refines s (Runs.run (atomicStep calls) (atomicStart shared) acts))
    (hs : Shows view calls shared l s (Runs.run (atomicStep calls) (atomicStart shared) acts)
      acts) :
    Shows view calls shared l s'
      (Runs.run (atomicStep calls) (atomicStart shared) (acts ++ shown)) (acts ++ shown) := by
  rw [Runs.run_append]
  cases h with
  | idle => simpa using hs
  | @invoked t op h =>
    apply hs.other (Or.inr ⟨op, rfl⟩)
    · rw [h]
      exact not_holds_idle l
    · rw [href.idle t h]
      simp
    · rfl
    · exact fun u hu => Function.update_of_ne hu _ _
  | @answered t r h =>
    apply hs.other (Or.inl rfl)
    · rw [h]
      exact not_holds_outside _ l
    · rw [href.outside t _ h]
      simp
    · rfl
    · exact fun u hu => Function.update_of_ne hu _ _
  | @acquired t k body h hfree =>
    by_cases hk : k = l
    · subst hk
      exact Shows.acquire href h hfree
    · apply hs.other (Or.inl rfl)
      · rw [h]
        exact not_holds_outside _ l
      · rw [href.outside t _ h]
        intro body' heq
        simp only [Option.some.injEq, Code.acquire.injEq] at heq
        exact hk heq.1
      · rfl
      · exact fun u hu => Function.update_of_ne hu _ _
  | @acted t k change next h =>
    rw [List.append_nil, Runs.run_nil]
    by_cases hk : k = l
    · subst hk
      exact hs.act hjump href h
    · apply hs.keep
      · exact Function.update_of_ne (Ne.symm hk) _ _
      · intro u hu
        have hut : u ≠ t := by
          rintro rfl
          obtain ⟨c, hc⟩ := hu
          rw [h] at hc
          cases hc
          exact hk rfl
        dsimp only
        rw [Function.update_of_ne hut]
        exact hu
  | @released t k rest h =>
    rw [List.append_nil, Runs.run_nil]
    by_cases hk : k = l
    · subst hk
      apply Shows.after
      rw [(href.inside t k _ h).1]
      rfl
    · apply hs.keep
      · rfl
      · intro u hu
        have hut : u ≠ t := by
          rintro rfl
          obtain ⟨c, hc⟩ := hu
          rw [h] at hc
          cases hc
          exact hk rfl
        dsimp only
        rw [Function.update_of_ne hut]
        exact hu

end Shows

/-- Stop the machine anywhere, inside its sections too: some run of the atomic machine has the same
history and shows the same value behind `l`. -/
theorem run_view {calls : Op → Code σ ρ} (hcalls : ∀ op, (calls op).Jumps view)
    (shared : ∀ l, σ l) (acts : List (Act T Op)) (l : L) :
    ∃ acts', acts'.Sublist acts ∧
      (Runs.run (atomicStep calls) (atomicStart shared) acts').history =
        (Runs.run (step calls) (start shared) acts).history ∧
      view l ((Runs.run (atomicStep calls) (atomicStart shared) acts').shared l) =
        view l ((Runs.run (step calls) (start shared) acts).shared l) := by
  have hrun : ∃ acts', acts'.Sublist acts ∧
      Refines (Runs.run (step calls) (start shared) acts)
        (Runs.run (atomicStep calls) (atomicStart shared) acts') ∧
      Jumping view (Runs.run (step calls) (start shared) acts) ∧
      Shows view calls shared l (Runs.run (step calls) (start shared) acts)
        (Runs.run (atomicStep calls) (atomicStart shared) acts') acts' := by
    induction acts using List.reverseRecOn with
    | nil =>
      refine ⟨[], List.Sublist.slnil, start_refines shared, ⟨?_, ?_⟩, Shows.after rfl⟩
      · intro t code h
        simp [start] at h
      · intro t l code h
        simp [start] at h
    | append_singleton acts act ih =>
      obtain ⟨acts', hsub, href, hjump, hshows⟩ := ih
      obtain ⟨shown, htrans⟩ := step_trans calls (Runs.run (step calls) (start shared) acts) act
      refine ⟨acts' ++ shown, hsub.append htrans.sublist, ?_, ?_, ?_⟩
      · rw [Runs.run_append, Runs.run_append]
        exact htrans.refines href
      · rw [Runs.run_append]
        exact htrans.jumping hcalls href.owned hjump
      · rw [Runs.run_append]
        exact htrans.shows hjump href hshows
  obtain ⟨acts', hsub, href, -, hshows⟩ := hrun
  cases hshows with
  | after hview => exact ⟨acts', hsub, href.history, hview.symm⟩
  | before hsub' _ hview hbehind =>
    exact ⟨_, hsub'.trans hsub, hbehind.history.trans href.history, hview.symm⟩

end Views

end SkegRigging.Monitors
