import SkegRigging.Library.Runs
import SkegRigging.Rigging.Contract

/-!
# Receiving from an EventStream

The receive calls of `EventStream` as a machine. A call is a loop around one receive of the channel,
so its state is a phase: which call is in progress and what its next pass does. A producer may send
or disconnect, and time may pass, between any two passes. The channel is a FIFO that reports a
disconnect when it is empty.

The machine notes what was sent, what was dequeued and how every call ended. What was returned is
what the filter accepts of what was dequeued (`eachState_delivered`): an event is lost neither
between two calls nor by a call that ends without one.
-/

set_option autoImplicit false

namespace SkegRigging

/-- `Duration`: at most `u64::MAX` seconds and 999 999 999 nanoseconds. -/
structure Duration where
  nanos : Nat
  le_max : nanos ≤ (2 ^ 64 - 1) * 10 ^ 9 + 999999999

/-- `Duration::MAX`. -/
def Duration.max : Duration := ⟨(2 ^ 64 - 1) * 10 ^ 9 + 999999999, Nat.le_refl _⟩

namespace EventStream

inductive Call
  | recv
  | tryRecv
  | recvTimeout (timeout : Duration)
  | next

/-- How a call ends. `ended` is the `None` of the iterator. -/
inductive Reply
  | event (e : Event)
  | empty
  | timeout
  | disconnected
  | ended
  | panicked
  deriving DecidableEq, Repr

/-- What the consumer does next: nothing, or the next pass of a loop. A pass of `recv_timeout` first
measures what remains until the deadline, then hands it to the channel, which waits until a moment
of its own, or without one when that moment cannot be represented. -/
inductive Phase
  | idle
  | recv
  | next
  | tryRecv
  | budget (deadline : Nat)
  | measured (deadline remaining : Nat)
  | waiting (deadline : Nat) (wake : Option Nat)
  deriving DecidableEq, Repr

end EventStream

/-- A stream with the channel behind its receiver, the clock in nanoseconds, and the call in
progress; and, for the statements, every event sent, every event dequeued, and every reply. -/
structure EventStream where
  filter : EventFilter
  queue : List Event
  connected : Bool
  now : Nat
  phase : EventStream.Phase
  sent : List Event
  dequeued : List Event
  replies : List EventStream.Reply

namespace EventStream

/-- `EventStream::new` on the receiver of a new channel. -/
def new (filter : EventFilter) (now : Nat) : EventStream :=
  { filter, queue := [], connected := true, now, phase := .idle, sent := [], dequeued := [],
    replies := [] }

/-- The call in progress ends. -/
def reply (s : EventStream) (r : Reply) : EventStream :=
  { s with phase := .idle, replies := s.replies ++ [r] }

/-- The channel hands out `e`: the call returns it, or goes on with the phase `again`. -/
def take (s : EventStream) (e : Event) (rest : List Event) (again : Phase) : EventStream :=
  let s := { s with queue := rest, dequeued := s.dequeued ++ [e] }
  if s.filter.accepts e then s.reply (.event e) else { s with phase := again }

/-! ## The passes of the loops -/

/-- `self.rx.recv()?`: it blocks while the queue is empty and the producer is there. -/
def recvPass (s : EventStream) (again : Phase) (gone : Reply) : EventStream :=
  match s.queue with
  | e :: rest => s.take e rest again
  | [] => if s.connected then s else s.reply gone

def recv (s : EventStream) : EventStream := s.recvPass .recv .disconnected

/-- `Iterator::next` is `self.recv().ok()`. -/
def next (s : EventStream) : EventStream := s.recvPass .next .ended

def tryRecv (s : EventStream) : EventStream :=
  match s.queue with
  | e :: rest => s.take e rest .tryRecv
  | [] => s.reply (if s.connected then .empty else .disconnected)

section RecvTimeout

variable (maxInstant : Nat)

/-- `Instant::checked_add`; `maxInstant` is the last moment that can be represented. -/
def checkedAdd (instant nanos : Nat) : Option Nat :=
  if instant + nanos ≤ maxInstant then some (instant + nanos) else none

/-- `Instant::now() + timeout`, which panics when the sum cannot be represented. -/
def recvTimeout (s : EventStream) (timeout : Duration) : EventStream :=
  match checkedAdd maxInstant s.now timeout.nanos with
  | some deadline => { s with phase := .budget deadline }
  | none => s.reply .panicked

/-- `deadline.saturating_duration_since(Instant::now())`. -/
def measure (s : EventStream) (deadline : Nat) : EventStream :=
  { s with phase := .measured deadline (deadline - s.now) }

/-- `self.rx.recv_timeout(remaining)`: the channel fixes its own deadline and waits. -/
def await (s : EventStream) (deadline remaining : Nat) : EventStream :=
  { s with phase := .waiting deadline (checkedAdd maxInstant s.now remaining) }

/-- The channel looks at its queue while it waits; an event it hands out ends this wait. -/
def poll (s : EventStream) (deadline : Nat) : EventStream :=
  s.recvPass (.budget deadline) .disconnected

/-- The channel gives up once the moment it waits for has come. -/
def expire (s : EventStream) : EventStream :=
  match s.phase with
  -- an event may have come since the channel last looked
  | .waiting _ (some wake) => if wake ≤ s.now then s.reply .timeout else s
  | _ => s

/-- The next pass of the call in progress. -/
def turn (s : EventStream) : EventStream :=
  match s.phase with
  | .idle => s
  | .recv => s.recv
  | .next => s.next
  | .tryRecv => s.tryRecv
  | .budget deadline => s.measure deadline
  | .measured deadline remaining => s.await maxInstant deadline remaining
  | .waiting deadline _ => s.poll deadline

/-- The consumer calls, unless a call is in progress. -/
def call (s : EventStream) (c : Call) : EventStream :=
  match s.phase with
  | .idle =>
    match c with
    | .recv => { s with phase := .recv }
    | .tryRecv => { s with phase := .tryRecv }
    | .recvTimeout timeout => s.recvTimeout maxInstant timeout
    | .next => { s with phase := .next }
  | _ => s

inductive Act
  | send (e : Event)
  | disconnect
  | tick (nanos : Nat)
  | call (c : Call)
  | turn
  | expire

def step (s : EventStream) : Act → EventStream
  | .send e =>
    if s.connected then { s with queue := s.queue ++ [e], sent := s.sent ++ [e] } else s
  | .disconnect => { s with connected := false }
  | .tick nanos => { s with now := s.now + nanos }
  | .call c => s.call maxInstant c
  | .turn => s.turn maxInstant
  | .expire => s.expire

end RecvTimeout

/-! ## What a step can do -/

/-- The event of a reply. -/
def Reply.returned : Reply → Option Event
  | .event e => some e
  | _ => none

/-- The events returned so far. -/
def returned (s : EventStream) : List Event := s.replies.filterMap Reply.returned

/-- What a step can do to the queue and the replies, whatever the phase. -/
inductive Moves (s : EventStream) : EventStream → Prop
  | stays {s' : EventStream} (hfilter : s'.filter = s.filter) (hqueue : s'.queue = s.queue)
      (hsent : s'.sent = s.sent) (hdequeued : s'.dequeued = s.dequeued)
      (hreplies : s'.replies = s.replies) : Moves s s'
  | sends (e : Event) : Moves s { s with queue := s.queue ++ [e], sent := s.sent ++ [e] }
  | skips {e : Event} {rest : List Event} (hqueue : s.queue = e :: rest)
      (hrej : s.filter.accepts e = false) (again : Phase) :
      Moves s { s with queue := rest, dequeued := s.dequeued ++ [e], phase := again }
  | returns {e : Event} {rest : List Event} (hqueue : s.queue = e :: rest)
      (hacc : s.filter.accepts e = true) :
      Moves s { s with queue := rest, dequeued := s.dequeued ++ [e], phase := .idle,
                       replies := s.replies ++ [.event e] }
  -- a call that ends without an event; `gone` is the reply of a disconnected channel
  | answers {r : Reply} (hnone : r.returned = none) (hempty : r = .empty → s.queue = [])
      (hgone : r = .disconnected ∨ r = .ended → s.queue = [] ∧ s.connected = false) :
      Moves s (s.reply r)

theorem take_moves {s : EventStream} {e : Event} {rest : List Event} (hqueue : s.queue = e :: rest)
    (again : Phase) : Moves s (s.take e rest again) := by
  rw [take]
  cases hacc : s.filter.accepts e with
  | true => exact Moves.returns hqueue hacc
  | false => exact Moves.skips hqueue hacc again

theorem stays_self (s : EventStream) : Moves s s := Moves.stays rfl rfl rfl rfl rfl

/-- A disconnect is reported on an empty queue without a producer. -/
theorem gone_moves {s : EventStream} (hqueue : s.queue = []) (hconn : ¬ s.connected = true)
    {gone : Reply} (hnone : gone.returned = none) : Moves s (s.reply gone) :=
  Moves.answers hnone (fun _ => hqueue) fun _ => ⟨hqueue, Bool.eq_false_iff.2 hconn⟩

theorem recvPass_moves (s : EventStream) (again : Phase) {gone : Reply}
    (hnone : gone.returned = none) : Moves s (s.recvPass again gone) := by
  rw [recvPass]
  split
  · rename_i e rest hqueue
    exact take_moves hqueue again
  · rename_i hqueue
    split
    · exact stays_self s
    · rename_i hconn
      exact gone_moves hqueue hconn hnone

theorem tryRecv_moves (s : EventStream) : Moves s s.tryRecv := by
  rw [tryRecv]
  split
  · rename_i e rest hqueue
    exact take_moves hqueue .tryRecv
  · rename_i hqueue
    split
    · exact Moves.answers rfl (fun _ => hqueue) (by simp)
    · rename_i hconn
      exact gone_moves hqueue hconn rfl

theorem call_moves (maxInstant : Nat) (s : EventStream) (c : Call) :
    Moves s (s.call maxInstant c) := by
  unfold call
  split
  · cases c with
    | recv => exact Moves.stays rfl rfl rfl rfl rfl
    | tryRecv => exact Moves.stays rfl rfl rfl rfl rfl
    | next => exact Moves.stays rfl rfl rfl rfl rfl
    | recvTimeout timeout =>
      dsimp only
      rw [recvTimeout]
      split
      · exact Moves.stays rfl rfl rfl rfl rfl
      · exact Moves.answers rfl (by simp) (by simp)
  · exact stays_self s

theorem turn_moves (maxInstant : Nat) (s : EventStream) : Moves s (s.turn maxInstant) := by
  rw [turn]
  cases s.phase with
  | idle => exact stays_self s
  | recv => exact recvPass_moves s _ rfl
  | next => exact recvPass_moves s _ rfl
  | tryRecv => exact tryRecv_moves s
  | budget deadline => exact Moves.stays rfl rfl rfl rfl rfl
  | measured deadline remaining => exact Moves.stays rfl rfl rfl rfl rfl
  | waiting deadline wake => exact recvPass_moves s _ rfl

theorem expire_moves (s : EventStream) : Moves s s.expire := by
  rw [expire]
  split
  · split
    · exact Moves.answers rfl (by simp) (by simp)
    · exact stays_self s
  · exact stays_self s

/-- `Moves` lists everything a step can do. -/
theorem step_moves (maxInstant : Nat) (s : EventStream) (a : Act) :
    Moves s (step maxInstant s a) := by
  cases a with
  | send e =>
    rw [step]
    split
    · exact Moves.sends e
    · exact stays_self s
  | disconnect => exact Moves.stays rfl rfl rfl rfl rfl
  | tick nanos => exact Moves.stays rfl rfl rfl rfl rfl
  | call c => exact call_moves maxInstant s c
  | turn => exact turn_moves maxInstant s
  | expire => exact expire_moves s

/-! ## Delivery -/

/-- Every event sent was dequeued or is waiting, in sending order, and what was returned is what the
filter accepts of what was dequeued. -/
structure Delivered (filter : EventFilter) (s : EventStream) : Prop where
  filter_eq : s.filter = filter
  sent_eq : s.sent = s.dequeued ++ s.queue
  returned_eq : s.returned = s.dequeued.filter filter.accepts

/-- What a reply says about the state the call ends in. -/
def Justified (filter : EventFilter) (s : EventStream) : Reply → Prop
  | .event e => (∃ earlier, s.dequeued = earlier ++ [e]) ∧ filter.accepts e = true
  | .empty => ∀ e ∈ s.queue, filter.accepts e = false
  | .disconnected | .ended => s.connected = false ∧ s.returned = s.sent.filter filter.accepts
  | .timeout | .panicked => True

/-- A step ends at most one call, with a reply that is justified. -/
def Answers (filter : EventFilter) (s s' : EventStream) : Prop :=
  s'.replies = s.replies ∨ ∃ r, s'.replies = s.replies ++ [r] ∧ Justified filter s' r

theorem new_delivered (filter : EventFilter) (now : Nat) : Delivered filter (new filter now) :=
  ⟨rfl, rfl, rfl⟩

theorem returned_reply {s : EventStream} {r : Reply} (hnone : r.returned = none) :
    (s.reply r).returned = s.returned := by
  simp [returned, reply, hnone]

theorem Moves.delivered {filter : EventFilter} {s s' : EventStream} (h : Moves s s')
    (hs : Delivered filter s) : Delivered filter s' := by
  cases h with
  | stays hfilter hqueue hsent hdequeued hreplies =>
    refine ⟨hfilter.trans hs.filter_eq, ?_, ?_⟩
    · rw [hsent, hdequeued, hqueue]
      exact hs.sent_eq
    · rw [returned, hreplies, hdequeued]
      exact hs.returned_eq
  | sends e =>
    refine ⟨hs.filter_eq, ?_, hs.returned_eq⟩
    show s.sent ++ [e] = s.dequeued ++ (s.queue ++ [e])
    rw [hs.sent_eq, List.append_assoc]
  | skips hqueue hrej again =>
    rename_i e rest
    refine ⟨hs.filter_eq, ?_, ?_⟩
    · show s.sent = s.dequeued ++ [e] ++ rest
      rw [hs.sent_eq, hqueue, List.append_assoc, List.singleton_append]
    · show s.returned = (s.dequeued ++ [e]).filter filter.accepts
      rw [hs.filter_eq] at hrej
      rw [hs.returned_eq]
      simp [hrej]
  | returns hqueue hacc =>
    rename_i e rest
    refine ⟨hs.filter_eq, ?_, ?_⟩
    · show s.sent = s.dequeued ++ [e] ++ rest
      rw [hs.sent_eq, hqueue, List.append_assoc, List.singleton_append]
    · show (s.replies ++ [Reply.event e]).filterMap Reply.returned = _
      rw [hs.filter_eq] at hacc
      have hreturned : s.replies.filterMap Reply.returned = _ := hs.returned_eq
      rw [List.filterMap_append, hreturned]
      simp [Reply.returned, hacc]
  | answers hnone hempty hgone =>
    refine ⟨hs.filter_eq, hs.sent_eq, ?_⟩
    rw [returned_reply hnone]
    exact hs.returned_eq

/-- When the queue is empty, everything sent that the filter accepts was returned. -/
theorem Delivered.drained {filter : EventFilter} {s : EventStream} (hs : Delivered filter s)
    (hqueue : s.queue = []) : s.returned = s.sent.filter filter.accepts := by
  rw [hs.returned_eq, hs.sent_eq, hqueue, List.append_nil]

theorem Moves.answers_justified {filter : EventFilter} {s s' : EventStream} (h : Moves s s')
    (hs : Delivered filter s) : Answers filter s s' := by
  cases h with
  | stays _ _ _ _ hreplies => exact Or.inl hreplies
  | sends e => exact Or.inl rfl
  | skips hqueue hrej again => exact Or.inl rfl
  | returns hqueue hacc =>
    rename_i e rest
    rw [hs.filter_eq] at hacc
    exact Or.inr ⟨.event e, rfl, ⟨s.dequeued, rfl⟩, hacc⟩
  | answers hnone hempty hgone =>
    rename_i r
    refine Or.inr ⟨r, rfl, ?_⟩
    -- a disconnect finds the queue empty, so nothing that was sent is still waiting
    have hdrained (hr : r = .disconnected ∨ r = .ended) :
        (s.reply r).connected = false ∧
          (s.reply r).returned = (s.reply r).sent.filter filter.accepts := by
      refine ⟨(hgone hr).2, ?_⟩
      rw [returned_reply hnone]
      exact hs.drained (hgone hr).1
    cases r with
    | event e => simp [Reply.returned] at hnone
    | empty =>
      intro e he
      rw [reply, hempty rfl] at he
      simp at he
    | timeout => trivial
    | panicked => trivial
    | disconnected => exact hdrained (Or.inl rfl)
    | ended => exact hdrained (Or.inr rfl)

/-- Whatever the filter and however sends, the disconnect and the passes of `recv`, `try_recv`,
`recv_timeout` and the iterator interleave: every state is `Delivered`, and every call that ends is
`Justified`. -/
theorem eachState_delivered (maxInstant : Nat) (filter : EventFilter) (now : Nat)
    (acts : List Act) :
    Runs.EachState (step maxInstant) (Delivered filter) (new filter now) acts ∧
      Runs.EachStep (step maxInstant) (fun s a => Answers filter s (step maxInstant s a))
        (new filter now) acts := by
  have hstep (s : EventStream) (a : Act) (hs : Delivered filter s) (_ : True) :
      Delivered filter (step maxInstant s a) :=
    (step_moves maxInstant s a).delivered hs
  have hany : Runs.EachStep (step maxInstant) (fun _ _ => True) (new filter now) acts :=
    Runs.eachStep_of_forall (step maxInstant) (fun _ _ => trivial) _ acts
  constructor
  · exact Runs.eachState_of_step (step maxInstant) hstep (new_delivered filter now) hany
  · exact Runs.eachStep_of_step (step maxInstant) hstep
      (fun s a hs _ => (step_moves maxInstant s a).answers_justified hs)
      (new_delivered filter now) hany

/-- A subscription to deletions drains an insertion without handing it out. -/
example :
    (Runs.run (step 0) (new ⟨false, true, false, false, false⟩ 0)
      [.send (.recordInserted ⟨1⟩ true), .send (.recordDeleted ⟨1⟩), .call .tryRecv, .turn, .turn,
        .call .tryRecv, .turn, .disconnect, .call .next, .turn]).replies =
      [.event (.recordDeleted ⟨1⟩), .empty, .ended] := by
  decide

/-- A stream hands its consumer what the tenant's `Channel` says it delivers, up to what the filter
accepts of the events still waiting. -/
theorem Delivered.channel {filter : EventFilter} {s : EventStream} (hs : Delivered filter s)
    {c : Channel} (hc : c.queue = s.sent) :
    s.returned ++ s.queue.filter filter.accepts = c.delivered filter := by
  rw [Channel.delivered, hc, hs.sent_eq, List.filter_append, hs.returned_eq]

end EventStream

end SkegRigging
