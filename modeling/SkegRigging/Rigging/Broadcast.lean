import SkegRigging.Library.Replay
import SkegRigging.Rigging.Mock

/-!
# The event bus of MockTenant

`MockTenant::emit` sends and prunes in one pass: a sender whose stream was dropped stays in the list
until the next event. The run below keeps, beside the tenant, one ghost record for each stream that
was ever opened: the records as they were when it subscribed, and the events of the changes made
since. The invariant says that the senders are those of a selection of the streams which has every
live one (`Kept`); from it every live stream has received exactly the changes since it subscribed,
and a replay of them gives the current records (`eachState_faithful`).
-/

set_option autoImplicit false

namespace SkegRigging

variable {F : Type}

/-- A stream that was opened: its number, whether it is still alive, the id-to-flag map when it
subscribed, and the events of the changes made since then. -/
structure Subscription where
  number : Nat
  live : Bool
  base : RecordId → Option Bool
  events : List Event

/-- The channel of a stream that has been sent all its events. -/
def Subscription.channel (s : Subscription) : Channel :=
  { stream := s.number, queue := s.events, live := s.live }

/-- A tenant with every stream that was opened on it, in subscription order. -/
structure Bus (F : Type) where
  tenant : MockTenant F
  streams : List Subscription

namespace Bus

/-- A call on the tenant, or the drop of a stream by its consumer. -/
inductive Op (F : Type)
  | insert (row : MockRecord F)
  | delete (recordId : RecordId)
  | setQuota (quota : Quota)
  | subscribe (filter : EventFilter)
  | drop (stream : Nat)

/-- The map from ids to shareable flags that a tenant holds. -/
def shareableOf (t : MockTenant F) (id : RecordId) : Option Bool :=
  (Keyed.find MockRecord.recordId id t.records).map MockRecord.shareable

/-- The event of a change: a successful insert, or a delete of an id that is present. -/
def change (t : MockTenant F) : Op F → Option Event
  | .insert row =>
    match (t.insertRecord row).2 with
    | .ok () => some (.recordInserted row.recordId row.shareable)
    | .err _ => none
    | .panic _ => none
  | .delete id =>
    if id ∈ t.records.map MockRecord.recordId then some (.recordDeleted id) else none
  | .setQuota _ => none
  | .subscribe _ => none
  | .drop _ => none

/-- The call on the tenant. A new stream takes the next number. -/
def call (b : Bus F) : Op F → MockTenant F
  | .insert row => (b.tenant.insertRecord row).1
  | .delete id => (b.tenant.delete id).1
  | .setQuota quota => b.tenant.setQuota quota
  | .subscribe _ => b.tenant.subscribe b.streams.length
  | .drop stream => b.tenant.dropStream stream

/-- A change is noted for every stream. -/
def note (e : Option Event) (s : Subscription) : Subscription :=
  { s with events := s.events ++ e.toList }

/-- The consumer of stream `n` is gone. -/
def kill (n : Nat) (s : Subscription) : Subscription :=
  if s.number = n then { s with live := false } else s

/-- The ghost records after a call. -/
def attend (b : Bus F) : Op F → List Subscription
  | .subscribe _ => b.streams ++
      [{ number := b.streams.length, live := true, base := shareableOf b.tenant, events := [] }]
  | .drop stream => b.streams.map (kill stream)
  | o => b.streams.map (note (change b.tenant o))

def step (b : Bus F) (o : Op F) : Bus F := { tenant := call b o, streams := attend b o }

/-- A new tenant without streams. -/
def init (tenantId : TenantId) (embeddingDim : UInt32) : Bus F :=
  { tenant := .new tenantId embeddingDim, streams := [] }

/-- What a live stream can rely on: one sender feeds it, with exactly the changes since it
subscribed in its queue, and their replay on the map of that moment gives the current map. -/
structure Faithful (b : Bus F) : Prop where
  distinct : (b.tenant.subscribers.map Channel.stream).Nodup
  received : ∀ s ∈ b.streams, s.live = true → s.channel ∈ b.tenant.subscribers
  replayed : ∀ s ∈ b.streams, s.live = true →
    Replay.replay s.base (writes s.events) = shareableOf b.tenant

/-- After a change the senders are those of the live streams, in subscription order. -/
def Pruned (b : Bus F) (o : Op F) : Prop :=
  change b.tenant o ≠ none →
    (step b o).tenant.subscribers =
      ((step b o).streams.filter (·.live)).map Subscription.channel

/-- A selection of the streams that has every live one. -/
structure Kept (streams kept : List Subscription) : Prop where
  sublist : kept.Sublist streams
  live : kept.filter (·.live) = streams.filter (·.live)

/-- The invariant. The streams are numbered from zero. -/
structure Inv (b : Bus F) : Prop where
  numbered : b.streams.map Subscription.number = List.range b.streams.length
  senders : ∃ kept, Kept b.streams kept ∧
    b.tenant.subscribers = kept.map Subscription.channel
  replayed : ∀ s ∈ b.streams, Replay.replay s.base (writes s.events) = shareableOf b.tenant

/-! ## What a call does -/

theorem shareableOf_upsert (t : MockTenant F) (row : MockRecord F) :
    shareableOf { t with records := Keyed.upsert MockRecord.recordId row t.records } =
      Function.update (shareableOf t) row.recordId (some row.shareable) := by
  funext id
  rw [shareableOf, Keyed.find_upsert]
  by_cases hid : id = row.recordId
  · rw [if_pos hid, hid, Function.update_self]
    rfl
  · rw [if_neg hid, Function.update_of_ne hid]
    rfl

theorem shareableOf_remove (t : MockTenant F) (id : RecordId) :
    shareableOf { t with records := Keyed.remove MockRecord.recordId id t.records } =
      Function.update (shareableOf t) id none := by
  funext k
  rw [shareableOf, Keyed.find_remove]
  by_cases hk : k = id
  · rw [if_pos hk, hk, Function.update_self]
    rfl
  · rw [if_neg hk, Function.update_of_ne hk]
    rfl

/-- The call is neither a subscription nor a drop. -/
def Op.IsTenantCall : Op F → Prop
  | .subscribe _ => False
  | .drop _ => False
  | _ => True

/-- A call that changes nothing is silent; one that makes a change broadcasts its event once. -/
theorem call_spec (b : Bus F) {o : Op F} (ho : o.IsTenantCall) :
    match change b.tenant o with
    | none => (call b o).subscribers = b.tenant.subscribers ∧
        shareableOf (call b o) = shareableOf b.tenant
    | some e => (call b o).subscribers = broadcast e b.tenant.subscribers ∧
        shareableOf (call b o) = Replay.replay (shareableOf b.tenant) (writes [e]) := by
  cases o with
  | insert row =>
    rw [change, call]
    rcases b.tenant.insertRecord_cases row with ⟨-, m, h⟩ | ⟨-, -, e, -, h⟩ | ⟨-, -, h⟩
    · rw [h]
      exact ⟨rfl, rfl⟩
    · rw [h]
      exact ⟨rfl, rfl⟩
    · rw [h]
      exact ⟨rfl, shareableOf_upsert b.tenant row⟩
  | delete id =>
    have hlen : (Keyed.remove MockRecord.recordId id b.tenant.records).length ≠
        b.tenant.records.length ↔ id ∈ b.tenant.records.map MockRecord.recordId :=
      Keyed.length_remove_ne_iff MockRecord.recordId
    rw [change, call, MockTenant.delete]
    by_cases hmem : id ∈ b.tenant.records.map MockRecord.recordId
    · rw [if_pos hmem]
      dsimp only
      rw [if_pos (by simpa using hlen.2 hmem)]
      exact ⟨rfl, shareableOf_remove b.tenant id⟩
    · -- nothing to remove: the filter keeps the list
      rw [if_neg hmem]
      dsimp only
      rw [if_neg (by simpa using mt hlen.1 hmem), Keyed.remove_of_not_mem _ hmem]
      exact ⟨rfl, rfl⟩
  | setQuota quota => exact ⟨rfl, rfl⟩
  | subscribe filter => exact ho.elim
  | drop stream => exact ho.elim

/-! ## Selections -/

theorem filter_live_map_note (e : Option Event) (l : List Subscription) :
    (l.map (note e)).filter (·.live) = (l.filter (·.live)).map (note e) := by
  rw [List.filter_map]
  rfl

theorem filter_live_map_kill (n : Nat) (l : List Subscription) :
    (l.map (kill n)).filter (·.live) =
      ((l.filter (·.live)).filter fun s => s.number ≠ n) := by
  induction l with
  | nil => rfl
  | cons s l ih =>
    rw [List.map_cons]
    by_cases hn : s.number = n
    · have hdead : (kill n s).live = false := by simp [kill, hn]
      rw [List.filter_cons_of_neg (by simp [hdead]), ih]
      cases hl : s.live with
      | true => simp [hl, hn]
      | false => simp [hl]
    · have hsame : kill n s = s := by simp [kill, hn]
      rw [hsame]
      cases hl : s.live with
      | true => simp [hl, hn, ih]
      | false => simp [hl, ih]

theorem Kept.note {streams kept : List Subscription} (h : Kept streams kept) (e : Option Event) :
    Kept (streams.map (note e)) (kept.map (note e)) where
  sublist := h.sublist.map _
  live := by rw [filter_live_map_note, filter_live_map_note, h.live]

theorem Kept.prune {streams kept : List Subscription} (h : Kept streams kept) :
    Kept streams (kept.filter (·.live)) where
  sublist := List.filter_sublist.trans h.sublist
  live := by rw [List.filter_filter, ← h.live]; simp

theorem Kept.kill {streams kept : List Subscription} (h : Kept streams kept) (n : Nat) :
    Kept (streams.map (kill n)) (kept.map (kill n)) where
  sublist := h.sublist.map _
  live := by rw [filter_live_map_kill, filter_live_map_kill, h.live]

theorem Kept.append {streams kept : List Subscription} (h : Kept streams kept) (s : Subscription) :
    Kept (streams ++ [s]) (kept ++ [s]) where
  sublist := h.sublist.append (List.Sublist.refl _)
  live := by rw [List.filter_append, List.filter_append, h.live]

/-- The senders after a broadcast. -/
theorem broadcast_map_channel (e : Event) (kept : List Subscription) :
    broadcast e (kept.map Subscription.channel) =
      ((kept.filter (·.live)).map (note (some e))).map Subscription.channel := by
  rw [broadcast_eq, List.filter_map, List.map_map, List.map_map]
  rfl

theorem dropReceiver_map_channel (n : Nat) (kept : List Subscription) :
    dropReceiver n (kept.map Subscription.channel) =
      (kept.map (kill n)).map Subscription.channel := by
  rw [dropReceiver, List.map_map, List.map_map]
  apply List.map_congr_left
  intro s _
  by_cases hn : s.number = n
  · simp [Subscription.channel, kill, hn]
  · simp [Subscription.channel, kill, hn]

/-! ## The invariant along a run -/

variable {b : Bus F}

theorem map_number_note (e : Option Event) (l : List Subscription) :
    (l.map (note e)).map Subscription.number = l.map Subscription.number := by
  rw [List.map_map]
  rfl

theorem map_number_kill (n : Nat) (l : List Subscription) :
    (l.map (kill n)).map Subscription.number = l.map Subscription.number := by
  rw [List.map_map]
  apply List.map_congr_left
  intro s _
  by_cases hn : s.number = n
  · simp [kill, hn]
  · simp [kill, hn]

/-- A call that makes no change leaves the streams and the senders as they are. -/
theorem inv_silent (hb : Inv b) {o : Op F} (ho : o.IsTenantCall)
    (hc : change b.tenant o = none) (hs : attend b o = b.streams.map (note none)) :
    Inv (step b o) := by
  have hspec := call_spec b ho
  rw [hc] at hspec
  obtain ⟨hsubs, hmap⟩ := hspec
  obtain ⟨kept, hkept, hsenders⟩ := hb.senders
  have hnote : note none = (id : Subscription → Subscription) := by
    funext s
    simp [note]
  have hstreams : (step b o).streams = b.streams := by
    rw [step, hs, hnote, List.map_id]
  refine ⟨by rw [hstreams]; exact hb.numbered, ⟨kept, by rw [hstreams]; exact hkept, ?_⟩, ?_⟩
  · exact hsubs.trans hsenders
  · rw [hstreams]
    intro s hmem
    exact (hb.replayed s hmem).trans hmap.symm

/-- A change reaches the live senders and every stream's ghost record. -/
theorem inv_change (hb : Inv b) {o : Op F} (ho : o.IsTenantCall) {e : Event}
    (hc : change b.tenant o = some e) (hs : attend b o = b.streams.map (note (some e))) :
    Inv (step b o) ∧ Pruned b o := by
  have hspec := call_spec b ho
  rw [hc] at hspec
  obtain ⟨hsubs, hmap⟩ := hspec
  obtain ⟨kept, hkept, hsenders⟩ := hb.senders
  have hstreams : (step b o).streams = b.streams.map (note (some e)) := hs
  have hpruned : (step b o).tenant.subscribers =
      ((kept.filter (·.live)).map (note (some e))).map Subscription.channel := by
    rw [← broadcast_map_channel, ← hsenders]
    exact hsubs
  constructor
  · refine ⟨?_, ⟨_, ?_, hpruned⟩, ?_⟩
    · rw [hstreams, map_number_note, List.length_map]
      exact hb.numbered
    · rw [hstreams]
      exact hkept.prune.note _
    · rw [hstreams]
      intro s hmem
      obtain ⟨s', hs', rfl⟩ := List.mem_map.1 hmem
      change Replay.replay s'.base (writes (s'.events ++ [e])) = shareableOf (call b o)
      rw [writes_append, Replay.replay_append, hb.replayed s' hs', hmap]
  · intro _
    rw [hpruned, hstreams, filter_live_map_note, hkept.live]

theorem step_spec (hb : Inv b) (o : Op F) : Inv (step b o) ∧ Pruned b o := by
  have htenant : o.IsTenantCall → attend b o = b.streams.map (note (change b.tenant o)) →
      Inv (step b o) ∧ Pruned b o := by
    intro ho hs
    cases hc : change b.tenant o with
    | none =>
      rw [hc] at hs
      exact ⟨inv_silent hb ho hc hs, fun hne => absurd hc hne⟩
    | some e =>
      rw [hc] at hs
      exact inv_change hb ho hc hs
  cases o with
  | insert row => exact htenant trivial rfl
  | delete id => exact htenant trivial rfl
  | setQuota quota => exact htenant trivial rfl
  | subscribe filter =>
    obtain ⟨kept, hkept, hsenders⟩ := hb.senders
    refine ⟨⟨?_, ⟨_, hkept.append _, ?_⟩, ?_⟩, fun hne => absurd rfl hne⟩
    · change (b.streams ++ [_]).map Subscription.number = List.range (b.streams ++ [_]).length
      rw [List.map_append, hb.numbered, List.length_append, List.length_singleton,
        List.range_succ]
      rfl
    · rw [List.map_append, ← hsenders]
      rfl
    · intro s hmem
      rcases List.mem_append.1 hmem with hold | hnew
      · exact hb.replayed s hold
      · rw [List.mem_singleton.1 hnew]
        rfl
  | drop stream =>
    obtain ⟨kept, hkept, hsenders⟩ := hb.senders
    refine ⟨⟨?_, ⟨_, hkept.kill stream, ?_⟩, ?_⟩, fun hne => absurd rfl hne⟩
    · change (b.streams.map (kill stream)).map Subscription.number =
        List.range (b.streams.map (kill stream)).length
      rw [map_number_kill, List.length_map]
      exact hb.numbered
    · rw [← dropReceiver_map_channel, ← hsenders]
      rfl
    · intro s hmem
      obtain ⟨s', hs', rfl⟩ := List.mem_map.1 hmem
      have hkill : (kill stream s').base = s'.base ∧ (kill stream s').events = s'.events := by
        by_cases hn : s'.number = stream
        · simp [kill, hn]
        · simp [kill, hn]
      rw [hkill.1, hkill.2]
      exact hb.replayed s' hs'

theorem init_inv (tenantId : TenantId) (embeddingDim : UInt32) :
    Inv (init tenantId embeddingDim : Bus F) where
  numbered := rfl
  senders := ⟨[], ⟨List.Sublist.refl [], rfl⟩, rfl⟩
  replayed s hs := by simp [init] at hs

theorem Inv.faithful (hb : Inv b) : Faithful b := by
  obtain ⟨kept, hkept, hsenders⟩ := hb.senders
  have hnumber : (kept.map Subscription.channel).map Channel.stream =
      kept.map Subscription.number := by
    rw [List.map_map]
    rfl
  refine ⟨?_, ?_, fun s hs _ => hb.replayed s hs⟩
  · rw [hsenders, hnumber]
    apply List.Nodup.sublist (hkept.sublist.map _)
    rw [hb.numbered]
    exact List.nodup_range
  · intro s hs hlive
    -- a live stream passes the filter, and the selection has the same live streams
    have hmem : s ∈ kept.filter (·.live) := by
      rw [hkept.live]
      exact List.mem_filter.2 ⟨hs, hlive⟩
    rw [hsenders]
    exact List.mem_map_of_mem (List.mem_filter.1 hmem).1

/-- In every run of calls, subscriptions and drops: in every state each live stream has been sent
exactly the changes since it subscribed, and after every change the senders are the live streams. -/
theorem eachState_faithful (tenantId : TenantId) (embeddingDim : UInt32) (ops : List (Op F)) :
    Runs.EachState step Faithful (init tenantId embeddingDim) ops ∧
      Runs.EachStep step Pruned (init tenantId embeddingDim) ops := by
  have hstart : Inv (init tenantId embeddingDim : Bus F) := init_inv tenantId embeddingDim
  have hany := Runs.eachStep_of_forall step (fun _ _ => trivial)
    (init tenantId embeddingDim : Bus F) ops (C := fun _ _ => True)
  have hstep : ∀ (b : Bus F) o, Inv b → True → Inv (step b o) := fun b o hb _ => (step_spec hb o).1
  constructor
  · exact (Runs.eachState_of_step step hstep hstart hany).imp step fun b hb => hb.faithful
  · exact Runs.eachStep_of_step step hstep (fun b o hb _ => (step_spec hb o).2) hstart hany

end Bus

end SkegRigging
