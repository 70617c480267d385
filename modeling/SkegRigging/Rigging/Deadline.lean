import SkegRigging.Rigging.Stream

/-!
# The deadline of recv_timeout

`recv_timeout` fixes its deadline with `Instant::now() + timeout`. When the sum can be represented
the call keeps its budget under every schedule of arrivals, disconnects and passes: it times out
only past the deadline, and only after it has dequeued nothing the filter accepts. When the sum
cannot be represented the addition panics before the channel is looked at, where the channel's own
`recv_timeout` waits without a deadline (`await`). So the budget is kept exactly when the sum can be
represented (`keepsBudget_iff`).
-/

set_option autoImplicit false

namespace SkegRigging.EventStream

/-- Everything dequeued since `s` is rejected. -/
def Skipped (s s' : EventStream) : Prop :=
  ∃ skipped, s'.dequeued = s.dequeued ++ skipped ∧ ∀ e ∈ skipped, s.filter.accepts e = false

/-- What `recv_timeout` promises of a call made in `s`, in a state `s'` that it leads to: it has not
panicked, and it has timed out only when the clock has reached the moment of the call plus `timeout`
and nothing that the call dequeued is accepted. A moment that cannot be represented is never
reached. -/
structure KeepsBudget (maxInstant : Nat) (timeout : Duration) (s s' : EventStream) : Prop where
  total : s'.replies ≠ s.replies ++ [.panicked]
  timedOut : s'.replies = s.replies ++ [.timeout] →
    ∃ deadline, checkedAdd maxInstant s.now timeout.nanos = some deadline ∧ deadline ≤ s'.now ∧
      Skipped s s'

theorem checkedAdd_eq_some {maxInstant instant nanos moment : Nat} :
    checkedAdd maxInstant instant nanos = some moment ↔
      instant + nanos ≤ maxInstant ∧ moment = instant + nanos := by
  rw [checkedAdd]
  split
  · rename_i h
    simp only [Option.some.injEq, h, true_and]
    exact eq_comm
  · rename_i h
    simp [h]

/-! ## A call that is waiting -/

/-- What a phase of the loop says about the clock: no budget ends before the deadline. -/
def Phase.OnTime (deadline now : Nat) : Phase → Prop
  | .budget d => d = deadline
  | .measured d remaining => d = deadline ∧ deadline ≤ now + remaining
  | .waiting d wake => d = deadline ∧ ∀ moment ∈ wake, deadline ≤ moment
  | _ => False

/-- The states of a call made in `s` with a deadline. -/
inductive Calling (deadline : Nat) (s : EventStream) : EventStream → Prop
  | waits {s' : EventStream} (hfilter : s'.filter = s.filter) (hreplies : s'.replies = s.replies)
      (hskipped : Skipped s s') (hphase : s'.phase.OnTime deadline s'.now) : Calling deadline s s'
  | ended {s' : EventStream} {r : Reply} (hphase : s'.phase = .idle)
      (hreplies : s'.replies = s.replies ++ [r]) (hpanic : r ≠ .panicked)
      (htimeout : r = .timeout → deadline ≤ s'.now ∧ Skipped s s') : Calling deadline s s'

theorem Skipped.snoc {s s' : EventStream} {e : Event} (h : Skipped s s')
    (hrej : s.filter.accepts e = false) {s'' : EventStream}
    (hdequeued : s''.dequeued = s'.dequeued ++ [e]) : Skipped s s'' := by
  obtain ⟨skipped, heq, hall⟩ := h
  refine ⟨skipped ++ [e], ?_, ?_⟩
  · rw [hdequeued, heq, List.append_assoc]
  · intro e' he'
    rcases List.mem_append.1 he' with he' | he'
    · exact hall e' he'
    · rw [List.mem_singleton.1 he']
      exact hrej

/-- Time passes: a budget measured earlier only ends later. -/
theorem Phase.OnTime.later {deadline now now' : Nat} {p : Phase} (h : p.OnTime deadline now)
    (hnow : now ≤ now') : p.OnTime deadline now' := by
  cases p with
  | idle => exact h
  | recv => exact h
  | next => exact h
  | tryRecv => exact h
  | budget d => exact h
  | measured d remaining =>
    obtain ⟨hd, hle⟩ := h
    exact ⟨hd, by omega⟩
  | waiting d wake => exact h

theorem Skipped.congr {s s' s'' : EventStream} (h : Skipped s s')
    (hdequeued : s''.dequeued = s'.dequeued) : Skipped s s'' := by
  obtain ⟨skipped, heq, hall⟩ := h
  exact ⟨skipped, hdequeued.trans heq, hall⟩

/-- What happens outside the call, with time going forward, leaves its deadline. -/
theorem Calling.outside {deadline : Nat} {s s' s'' : EventStream} (h : Calling deadline s s')
    (hfilter : s''.filter = s'.filter) (hreplies : s''.replies = s'.replies)
    (hdequeued : s''.dequeued = s'.dequeued) (hphase : s''.phase = s'.phase)
    (hnow : s'.now ≤ s''.now) : Calling deadline s s'' := by
  cases h with
  | waits hfilter' hreplies' hskipped honTime =>
    refine Calling.waits (hfilter.trans hfilter') (hreplies.trans hreplies')
      (hskipped.congr hdequeued) ?_
    rw [hphase]
    exact honTime.later hnow
  | ended hidle hreplies' hpanic htimeout =>
    apply Calling.ended (hphase.trans hidle) (hreplies.trans hreplies') hpanic
    intro hr
    obtain ⟨hle, hskipped⟩ := htimeout hr
    exact ⟨hle.trans hnow, hskipped.congr hdequeued⟩

/-- The channel is asked while the call waits: the call goes on with the budget, ends with an
accepted event, or finds the producer gone. -/
theorem poll_calling {deadline : Nat} {s s' : EventStream} (hfilter : s'.filter = s.filter)
    (hreplies : s'.replies = s.replies) (hskipped : Skipped s s')
    (hphase : s'.phase.OnTime deadline s'.now) : Calling deadline s (s'.poll deadline) := by
  rw [poll, recvPass]
  split
  · rename_i e rest hqueue
    rw [take]
    cases hacc : s'.filter.accepts e with
    | true =>
      refine Calling.ended rfl ?_ (r := .event e) (by simp) (by simp)
      show s'.replies ++ [.event e] = _
      rw [hreplies]
    | false =>
      rw [hfilter] at hacc
      exact Calling.waits hfilter hreplies (hskipped.snoc hacc rfl) rfl
  · split
    · exact Calling.waits hfilter hreplies hskipped hphase
    · refine Calling.ended rfl ?_ (r := .disconnected) (by simp) (by simp)
      show s'.replies ++ [.disconnected] = _
      rw [hreplies]

/-- The next pass of a call keeps its deadline. The clock has not gone back since the budget was
measured, so the channel never waits for an earlier moment. -/
theorem turn_calling (maxInstant : Nat) {deadline : Nat} {s s' : EventStream}
    (h : Calling deadline s s') : Calling deadline s (s'.turn maxInstant) := by
  cases h with
  | waits hfilter hreplies hskipped hphase =>
    rw [turn]
    generalize hp : s'.phase = p at hphase ⊢
    cases p with
    | idle => exact hphase.elim
    | recv => exact hphase.elim
    | next => exact hphase.elim
    | tryRecv => exact hphase.elim
    | budget d =>
      have hd : d = deadline := hphase
      subst hd
      refine Calling.waits hfilter hreplies hskipped ⟨rfl, ?_⟩
      show d ≤ s'.now + (d - s'.now)
      omega
    | measured d remaining =>
      obtain ⟨hd, hle⟩ := hphase
      refine Calling.waits hfilter hreplies hskipped ⟨hd, ?_⟩
      intro moment hmoment
      obtain ⟨-, rfl⟩ := checkedAdd_eq_some.1 hmoment
      exact hle
    | waiting d wake =>
      obtain ⟨rfl, hwake⟩ := hphase
      apply poll_calling hfilter hreplies hskipped
      rw [hp]
      exact ⟨rfl, hwake⟩
  | ended hphase hreplies hpanic htimeout =>
    rw [turn, hphase]
    exact Calling.ended hphase hreplies hpanic htimeout

/-- The channel gives up only at a moment that is no earlier than the deadline. -/
theorem expire_calling {deadline : Nat} {s s' : EventStream} (h : Calling deadline s s') :
    Calling deadline s s'.expire := by
  rw [expire]
  split
  · rename_i d wake hp
    split
    · rename_i hwake
      cases h with
      | waits hfilter hreplies hskipped hphase =>
        rw [hp] at hphase
        have hle : deadline ≤ wake := hphase.2 wake rfl
        refine Calling.ended rfl ?_ (r := .timeout) (by simp) ?_
        · show s'.replies ++ [.timeout] = _
          rw [hreplies]
        · intro _
          exact ⟨by show deadline ≤ s'.now; omega, hskipped⟩
      | ended hphase _ _ _ =>
        rw [hp] at hphase
        exact absurd hphase (by simp)
    · exact h
  · exact h

theorem step_calling (maxInstant : Nat) {deadline : Nat} {s s' : EventStream} {a : Act}
    (hcall : ∀ c, a ≠ .call c) (h : Calling deadline s s') :
    Calling deadline s (step maxInstant s' a) := by
  cases a with
  | send e =>
    rw [step]
    split
    · exact h.outside rfl rfl rfl rfl (Nat.le_refl _)
    · exact h
  | disconnect => exact h.outside rfl rfl rfl rfl (Nat.le_refl _)
  | tick nanos => exact h.outside rfl rfl rfl rfl (Nat.le_add_right _ _)
  | call c => exact absurd rfl (hcall c)
  | turn => exact turn_calling maxInstant h
  | expire => exact expire_calling h

/-! ## The budget -/

theorem Calling.keepsBudget {maxInstant : Nat} {timeout : Duration} {s s' : EventStream}
    (hle : s.now + timeout.nanos ≤ maxInstant) (h : Calling (s.now + timeout.nanos) s s') :
    KeepsBudget maxInstant timeout s s' := by
  cases h with
  | waits _ hreplies _ _ =>
    constructor
    · rw [hreplies]
      simp
    · intro htimeout
      rw [hreplies] at htimeout
      simp at htimeout
  | ended _ hreplies hpanic htimeout =>
    rename_i r _
    constructor
    · rw [hreplies]
      simpa using hpanic
    · intro hr
      have hr : r = Reply.timeout := by simpa [hreplies] using hr
      exact ⟨s.now + timeout.nanos, checkedAdd_eq_some.2 ⟨hle, rfl⟩, htimeout hr⟩

/-- Under any schedule until the consumer's next call, `recv_timeout` keeps its budget exactly when
the moment of the call plus the timeout can be represented. -/
theorem keepsBudget_iff (maxInstant : Nat) (timeout : Duration) {s : EventStream}
    (hidle : s.phase = .idle) {acts : List Act} (hacts : ∀ c, Act.call c ∉ acts) :
    Runs.EachState (step maxInstant) (KeepsBudget maxInstant timeout s)
        (step maxInstant s (.call (.recvTimeout timeout))) acts ↔
      s.now + timeout.nanos ≤ maxInstant := by
  have hcall : step maxInstant s (.call (.recvTimeout timeout)) =
      s.recvTimeout maxInstant timeout := by
    rw [step, call, hidle]
  rw [hcall]
  constructor
  · intro h
    by_contra hover
    -- the addition panics, and that is the first state of the schedule
    have hpanic : s.recvTimeout maxInstant timeout = s.reply .panicked := by
      rw [recvTimeout, checkedAdd, if_neg hover]
    apply (h.head (step maxInstant)).total
    rw [hpanic, reply]
  · intro hle
    have hstart : s.recvTimeout maxInstant timeout =
        { s with phase := .budget (s.now + timeout.nanos) } := by
      rw [recvTimeout, checkedAdd, if_pos hle]
    have hskipped : Skipped s { s with phase := .budget (s.now + timeout.nanos) } :=
      ⟨[], (List.append_nil _).symm, by simp⟩
    have hsteps : Runs.EachStep (step maxInstant) (fun _ a => ∀ c, a ≠ .call c)
        (s.recvTimeout maxInstant timeout) acts := by
      rw [Runs.eachStep_iff]
      intro pre a hpre c hac
      subst hac
      exact hacts c (hpre.subset (List.mem_append_right pre (List.mem_singleton_self _)))
    have hrun : Runs.EachState (step maxInstant) (Calling (s.now + timeout.nanos) s)
        (s.recvTimeout maxInstant timeout) acts := by
      refine Runs.eachState_of_step (step maxInstant) ?_ ?_ hsteps
      · intro s' a hs' ha
        exact step_calling maxInstant ha hs'
      · rw [hstart]
        exact Calling.waits rfl rfl hskipped rfl
    exact hrun.imp (step maxInstant) fun s' hs' => hs'.keepsBudget hle

/-- A timeout of five nanoseconds, during which a rejected event arrives. -/
theorem keepsBudget_iff_example :
    Runs.EachState (step 100) (KeepsBudget 100 ⟨5, by decide⟩ (new .none 0))
        (step 100 (new .none 0) (.call (.recvTimeout ⟨5, by decide⟩)))
        [.send (.recordDeleted ⟨1⟩), .turn, .turn, .tick 3, .turn, .turn, .turn, .tick 2, .expire] ∧
      (Runs.run (step 100) (new .none 0)
        [.call (.recvTimeout ⟨5, by decide⟩), .send (.recordDeleted ⟨1⟩), .turn, .turn, .tick 3,
          .turn, .turn, .turn, .tick 2, .expire]).replies = [.timeout] :=
  ⟨(keepsBudget_iff 100 ⟨5, by decide⟩ rfl (by simp)).2 (by decide), by decide⟩

/-- The last moment of an `Instant` on Unix: `i64::MAX` seconds and 999 999 999 nanoseconds. -/
def unixMaxInstant : Nat := (2 ^ 63 - 1) * 10 ^ 9 + 999999999

/-- `recv_timeout(Duration::MAX)` panics. -/
theorem not_keepsBudget_max :
    ¬ KeepsBudget unixMaxInstant .max (new .all 0)
      (step unixMaxInstant (new .all 0) (.call (.recvTimeout .max))) :=
  fun h => h.total (by decide)

end SkegRigging.EventStream
