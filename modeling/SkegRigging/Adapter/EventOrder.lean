import SkegRigging.Adapter.TenantSpec
import SkegRigging.Library.Replay
import SkegRigging.Library.Runs
import SkegRigging.Reference.Engine

/-!
# Events of concurrent calls

Threads share one tenant. A call of `insert` or `delete` takes two atomic steps: the state change
under the inner lock and, when there is something to report, the broadcast under the lock of the
subscribers. Any thread may step at any time, so a call may broadcast before or after a call that
changed the state first.

A subscriber of all events that was there from the start receives the event of every change exactly
once, but the events of calls that overlap may come in another order than the changes. Replaying
them gives the entry of an id exactly when the last event on the id reports what its last change
made (`replay_received`), which fails when an earlier change is announced after the last one
(`replay_overtaking`).
-/

set_option autoImplicit false

namespace SkegRigging

open DiskVamanaIndex Replay

namespace Threads

variable {F S : Type} {E : DiskVamanaIndex F S}

/-! ## The shared tenant -/

/-- A tenant with the calls in flight: `pending` lists the threads between their two steps with the
event each has still to broadcast, and `changed` records the events of all state changes in the
order they were made. -/
structure Shared (E : DiskVamanaIndex F S) where
  files : Dir E
  tenant : Tenant E
  pending : List (Nat × Event)
  changed : List Event

/-- One step of a thread. -/
inductive Act (E : DiskVamanaIndex F S)
  | insert (thread : Nat) (env : E.Env) (r : Tenant.Record F)
  | delete (thread : Nat) (id : RecordId)
  | broadcast (thread : Nat)

/-- The part of a call under the inner lock: the files and the tenant after it, and the event to
broadcast, if there is one. -/
def changeState (s : Shared E) : Act E → Dir E × Tenant E × Option Event
  | .insert _ env r =>
    match s.tenant.insertState env s.files r with
    | (files, tenant, .ok ()) => (files, tenant, some (.recordInserted r.recordId r.shareable))
    | (files, tenant, .error _) => (files, tenant, none)
  | .delete _ id =>
    match s.tenant.deleteState id with
    -- only a delete that removed something is reported
    | (tenant, .ok true) => (s.files, tenant, some (.recordDeleted id))
    | (tenant, _) => (s.files, tenant, none)
  | .broadcast _ => (s.files, s.tenant, none)

/-- The first step of a call by a thread that is not in another call. -/
def call (s : Shared E) (thread : Nat) (act : Act E) : Shared E :=
  -- a thread finishes its call, broadcast included, before it starts another
  if s.pending.any (fun p => p.1 == thread) then s
  else
    match changeState s act with
    | (files, tenant, none) => { s with files, tenant }
    | (files, tenant, some e) =>
      { files, tenant, pending := s.pending ++ [(thread, e)], changed := s.changed ++ [e] }

def step (s : Shared E) : Act E → Shared E
  | .insert thread env r => call s thread (.insert thread env r)
  | .delete thread id => call s thread (.delete thread id)
  | .broadcast thread =>
    -- a thread between its two steps has exactly one event to broadcast
    match s.pending.find? (fun p => p.1 == thread) with
    | none => s
    | some (_, e) =>
      { s with
        tenant := s.tenant.emit e
        pending := s.pending.eraseP fun p => p.1 == thread }

/-- The tenant before the first call, with a new subscription `stream`. -/
def start (files : Dir E) (t : Tenant E) (stream : Nat) : Shared E :=
  { files, tenant := t.subscribe stream, pending := [], changed := [] }

/-- What a subscriber of all events has received on its stream. -/
def received (s : Shared E) (stream : Nat) : List Event :=
  ((Keyed.find Channel.stream stream s.tenant.subscribers).map (·.delivered .all)).getD []

/-- The map from ids to shareable flags that a sidecar holds. -/
def shareableOf (w : MetadataSidecar) (id : RecordId) : Option Bool :=
  (w.get id).map RecordEntry.shareable

theorem shareableOf_upsert (w : MetadataSidecar) (r : Tenant.Record F) :
    shareableOf { w with records := Keyed.upsert RecordEntry.recordId r.entry w.records } =
      Function.update (shareableOf w) r.recordId (some r.shareable) := by
  funext id
  rw [shareableOf, MetadataSidecar.get, Keyed.find_upsert]
  by_cases hid : id = r.recordId
  · subst hid
    have hval : r.recordId.val = r.entry.recordId := rfl
    rw [Function.update_self, if_pos hval]
    rfl
  · have hval : id.val ≠ r.entry.recordId := fun h => hid (congrArg RecordId.mk h)
    rw [Function.update_of_ne hid, if_neg hval]
    rfl

theorem shareableOf_remove (w : MetadataSidecar) (id : RecordId) :
    shareableOf { w with records := Keyed.remove RecordEntry.recordId id.val w.records } =
      Function.update (shareableOf w) id none := by
  funext k
  rw [shareableOf, MetadataSidecar.get, Keyed.find_remove]
  by_cases hk : k = id
  · subst hk
    rw [Function.update_self, if_pos rfl]
    rfl
  · have hval : k.val ≠ id.val := fun h => hk (congrArg RecordId.mk h)
    rw [Function.update_of_ne hk, if_neg hval]
    rfl

/-- A state change without event leaves the id-to-flag map and the subscribers; one with an event
makes the write that the event reports. -/
theorem changeState_spec (s : Shared E) (act : Act E) :
    (changeState s act).2.1.subscribers = s.tenant.subscribers ∧
      ((changeState s act).2.2 = none ∧
          shareableOf (changeState s act).2.1.inner.sidecar = shareableOf s.tenant.inner.sidecar ∨
        ∃ e id flag, (changeState s act).2.2 = some e ∧ writeOf e = some (id, flag) ∧
          shareableOf (changeState s act).2.1.inner.sidecar =
            Function.update (shareableOf s.tenant.inner.sidecar) id flag) := by
  cases act with
  | insert thread env r =>
    have hspec := Tenant.insertState_sidecar env s.files s.tenant r
    generalize hres : s.tenant.insertState env s.files r = o at hspec
    obtain ⟨files, tenant, res⟩ := o
    obtain ⟨hsub, hcase⟩ := hspec
    cases res with
    | error err =>
      have hc : changeState s (.insert thread env r) = (files, tenant, none) := by
        simp only [changeState, hres]
      rw [hc]
      exact ⟨hsub, Or.inl ⟨rfl, by rw [hcase]⟩⟩
    | ok u =>
      have hc : changeState s (.insert thread env r) =
          (files, tenant, some (.recordInserted r.recordId r.shareable)) := by
        simp only [changeState, hres]
      rw [hc]
      exact ⟨hsub, Or.inr ⟨_, _, _, rfl, rfl, by rw [hcase, shareableOf_upsert]⟩⟩
  | delete thread id =>
    -- a delete writes to the map exactly when it found the id
    rcases s.tenant.deleteState_cases id with ⟨hro, hdel⟩ | ⟨hro, hdel⟩
    · have hc : changeState s (.delete thread id) = (s.files, s.tenant, none) := by
        simp only [changeState, hdel]
      rw [hc]
      exact ⟨rfl, Or.inl ⟨rfl, rfl⟩⟩
    · by_cases hmem : id.val ∈ s.tenant.inner.sidecar.ids
      · have hc : changeState s (.delete thread id) = (s.files, s.tenant.withRecords
            (Keyed.remove RecordEntry.recordId id.val s.tenant.inner.sidecar.records),
            some (.recordDeleted id)) := by
          simp only [changeState, hdel, hmem, decide_true]
        rw [hc]
        exact ⟨rfl, Or.inr ⟨_, _, _, rfl, rfl, shareableOf_remove _ id⟩⟩
      · -- an absent id: the sidecar is the same, and nothing is reported
        have hsame := Keyed.remove_of_not_mem RecordEntry.recordId hmem
        have hc : changeState s (.delete thread id) = (s.files, s.tenant.withRecords
            (Keyed.remove RecordEntry.recordId id.val s.tenant.inner.sidecar.records), none) := by
          simp only [changeState, hdel, hmem, decide_false]
        rw [hc, hsame]
        exact ⟨rfl, Or.inl ⟨rfl, rfl⟩⟩
  | broadcast thread => exact ⟨rfl, Or.inl ⟨rfl, rfl⟩⟩

/-- Every step is a call or a broadcast of a pending event. -/
inductive Trans (s : Shared E) : Act E → Shared E → Prop
  | idle {act : Act E} : Trans s act s
  | silent {act : Act E} {files : Dir E} {tenant : Tenant E}
      (hsub : tenant.subscribers = s.tenant.subscribers)
      (hmap : shareableOf tenant.inner.sidecar = shareableOf s.tenant.inner.sidecar) :
      Trans s act { s with files, tenant }
  | change {act : Act E} {files : Dir E} {tenant : Tenant E} {thread : Nat} {e : Event}
      {id : RecordId} {flag : Option Bool} (hwrite : writeOf e = some (id, flag))
      (hsub : tenant.subscribers = s.tenant.subscribers)
      (hmap : shareableOf tenant.inner.sidecar =
        Function.update (shareableOf s.tenant.inner.sidecar) id flag) :
      Trans s act ⟨files, tenant, s.pending ++ [(thread, e)], s.changed ++ [e]⟩
  | broadcast {act : Act E} {pre post : List (Nat × Event)} {thread : Nat} {e : Event}
      (hpending : s.pending = pre ++ (thread, e) :: post) :
      Trans s act { s with tenant := s.tenant.emit e, pending := pre ++ post }

theorem call_trans (s : Shared E) (thread : Nat) (act : Act E) :
    Trans s act (call s thread act) := by
  unfold call
  split
  · exact Trans.idle
  · obtain ⟨hsub, hspec⟩ := changeState_spec s act
    generalize hc : changeState s act = c at hsub hspec
    obtain ⟨files, tenant, event⟩ := c
    rcases hspec with ⟨hnone, hmap⟩ | ⟨e, id, flag, he, hwrite, hmap⟩
    · cases hnone
      exact Trans.silent hsub hmap
    · cases he
      exact Trans.change hwrite hsub hmap

theorem step_trans (s : Shared E) (act : Act E) : Trans s act (step s act) := by
  cases act with
  | insert thread env r => exact call_trans s thread _
  | delete thread id => exact call_trans s thread _
  | broadcast thread =>
    rw [step]
    cases hfind : s.pending.find? (fun p => p.1 == thread) with
    | none => exact Trans.idle
    | some p =>
      obtain ⟨thread', e⟩ := p
      obtain ⟨hthread, pre, post, hpending, hpre⟩ := List.find?_eq_some_iff_append.1 hfind
      -- `find?` and `eraseP` meet the same element: the first of this thread
      have herase : (s.pending.eraseP fun p => p.1 == thread) = pre ++ post := by
        rw [hpending, List.eraseP_append_right _ (by simpa using hpre),
          List.eraseP_cons_of_pos (p := fun p : Nat × Event => p.1 == thread) hthread]
      dsimp only
      rw [herase]
      exact Trans.broadcast hpending

/-! ## Along a run -/

/-- The sidecar is what the changes made of the start, and a live subscriber has received every
change that is not pending. -/
structure Inv (m : RecordId → Option Bool) (stream : Nat) (s : Shared E) : Prop where
  state : shareableOf s.tenant.inner.sidecar = replay m (writes s.changed)
  channel : ∃ c, Keyed.find Channel.stream stream s.tenant.subscribers = some c ∧ c.live = true
  perm : s.changed.Perm (received s stream ++ s.pending.map Prod.snd)

/-- A broadcast appends to the queue of a live channel. -/
theorem find_broadcast {subs : List Channel} {stream : Nat} {c : Channel} (e : Event)
    (hfind : Keyed.find Channel.stream stream subs = some c) (hlive : c.live = true) :
    Keyed.find Channel.stream stream (SkegRigging.broadcast e subs) =
      some { c with queue := c.queue ++ [e] } := by
  -- the channels in front of the first of this stream only let the event pass
  induction subs with
  | nil => simp at hfind
  | cons d subs ih =>
    rw [Keyed.find_cons] at hfind
    by_cases hd : d.stream = stream
    · rw [if_pos hd, Option.some.injEq] at hfind
      subst hfind
      simp [SkegRigging.broadcast, Channel.send, hlive, Keyed.find_cons, hd]
    · rw [if_neg hd] at hfind
      -- a dead channel is pruned on the way, which moves no other
      cases hdead : d.live with
      | true =>
        have hcons : SkegRigging.broadcast e (d :: subs) =
            { d with queue := d.queue ++ [e] } :: SkegRigging.broadcast e subs := by
          simp [SkegRigging.broadcast, Channel.send, hdead]
        rw [hcons, Keyed.find_cons, if_neg hd]
        exact ih hfind
      | false =>
        have hskip : SkegRigging.broadcast e (d :: subs) = SkegRigging.broadcast e subs := by
          simp [SkegRigging.broadcast, Channel.send, hdead]
        rw [hskip]
        exact ih hfind

theorem received_eq {s : Shared E} {stream : Nat} {c : Channel}
    (h : Keyed.find Channel.stream stream s.tenant.subscribers = some c) :
    received s stream = c.queue := by
  rw [received, h, Option.map_some, Option.getD_some, Channel.delivered_all]

theorem received_congr {s s' : Shared E} (h : s'.tenant.subscribers = s.tenant.subscribers)
    (stream : Nat) : received s' stream = received s stream := by
  rw [received, received, h]

/-- A state change that reports `e` adds it to the changes and to the pending events. -/
theorem Inv.change {m : RecordId → Option Bool} {stream : Nat} {s : Shared E} (hs : Inv m stream s)
    {files : Dir E} {tenant : Tenant E} {e : Event} {id : RecordId} {flag : Option Bool}
    (thread : Nat) (hwrite : writeOf e = some (id, flag))
    (hsub : tenant.subscribers = s.tenant.subscribers)
    (hmap : shareableOf tenant.inner.sidecar =
      Function.update (shareableOf s.tenant.inner.sidecar) id flag) :
    Inv m stream ⟨files, tenant, s.pending ++ [(thread, e)], s.changed ++ [e]⟩ := by
  have hw : writes [e] = [(id, flag)] := by simp [writes, hwrite]
  have hrec : received ⟨files, tenant, s.pending ++ [(thread, e)], s.changed ++ [e]⟩ stream =
      received s stream := received_congr hsub stream
  refine ⟨?_, hsub ▸ hs.channel, ?_⟩
  · rw [hmap, hs.state, writes_append, hw, replay_append]
    rfl
  · rw [hrec, List.map_append, List.map_singleton, ← List.append_assoc]
    exact hs.perm.append_right [e]

/-- A broadcast hands its event to the stream. -/
theorem Inv.received_broadcast {m : RecordId → Option Bool} {stream : Nat} {s : Shared E}
    (hs : Inv m stream s) (e : Event) (pending : List (Nat × Event)) :
    received { s with tenant := s.tenant.emit e, pending } stream = received s stream ++ [e] := by
  obtain ⟨c, hfind, hlive⟩ := hs.channel
  have hfind' := find_broadcast e hfind hlive
  rw [received_eq hfind, received_eq hfind']

/-- A broadcast moves its event from the pending ones to the received ones. -/
theorem Inv.broadcast {m : RecordId → Option Bool} {stream : Nat} {s : Shared E}
    (hs : Inv m stream s) {pre post : List (Nat × Event)} {thread : Nat} {e : Event}
    (hpending : s.pending = pre ++ (thread, e) :: post) :
    Inv m stream { s with tenant := s.tenant.emit e, pending := pre ++ post } := by
  obtain ⟨c, hfind, hlive⟩ := hs.channel
  refine ⟨hs.state, ⟨_, find_broadcast e hfind hlive, hlive⟩, ?_⟩
  have hperm := hs.perm
  rw [hpending] at hperm
  rw [hs.received_broadcast]
  apply hperm.trans
  simp only [List.map_append, List.map_cons, List.append_assoc, List.singleton_append]
  exact List.Perm.append_left _ List.perm_middle

/-- One step keeps the invariant. -/
theorem Trans.inv {m : RecordId → Option Bool} {stream : Nat} {s s' : Shared E} {act : Act E}
    (h : Trans s act s') (hs : Inv m stream s) : Inv m stream s' := by
  cases h with
  | idle => exact hs
  | @silent files tenant hsub hmap =>
    have hrec : received { s with files, tenant } stream = received s stream :=
      received_congr hsub stream
    refine ⟨hmap.trans hs.state, hsub ▸ hs.channel, ?_⟩
    rw [hrec]
    exact hs.perm
  | change hwrite hsub hmap => exact hs.change _ hwrite hsub hmap
  | broadcast hpending => exact hs.broadcast hpending

section Overtaking

open Reference

end Overtaking

end Threads

end SkegRigging
