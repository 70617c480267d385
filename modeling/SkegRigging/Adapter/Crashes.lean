import SkegRigging.Adapter.Locks
import SkegRigging.Library.MonitorStops
import SkegRigging.Reference.Engine
import SkegRigging.Reference.Json

/-!
# Crashes among concurrent calls

A process may die while several threads are inside calls on one tenant. What it leaves is the
directory, and the directory changes at most once in a section (`codeOf_jumps`): an insert and a
consolidation when the engine returns, a flush when the write of the sidecar does. So the files at
any instant are those of a sequential session (`stopped_session`). Its history has every insert
that was answered `Ok`, and a flush that was answered `Ok` was written after every insert that was
answered before the flush was called.
-/

set_option autoImplicit false

namespace SkegRigging

open DiskVamanaIndex Monitors

variable {F S : Type}

namespace Tenant

variable {E : DiskVamanaIndex F S}

/-! ## Each section changes the directory once -/

section Jumps

/-- What a crash leaves of a guarded value: the files. -/
def diskView : ∀ g, Guarded E g → Option (Dir E)
  | .inner => fun x : Dir E × Inner E => some x.1
  | .subscribers => fun _ => none

/-- A step that only reads shows nothing. -/
theorem jumps_read {next : Dir E × Inner E → CallSection E .inner} {x : Dir E × Inner E}
    (h : (next x).Jumps diskView x) : (read next).Jumps diskView x :=
  ⟨Or.inl rfl, h⟩

theorem jumps_leave (a : Answer F S) (x : Dir E × Inner E) :
    (leave a : CallSection E .inner).Jumps diskView x :=
  trivial

theorem jumps_retainLoop (e : Event) (a : Answer F S) (left kept : Nat) (x : List Channel) :
    (retainLoop e a left kept : CallSection E .subscribers).Jumps diskView x := by
  induction left generalizing kept x with
  | zero => trivial
  | succ left ih => exact ⟨Or.inl rfl, ih _ _⟩

theorem jumps_emitCode (e : Event) (a : Answer F S) : (emitCode e a : CallCode E).Jumps diskView :=
  fun x => ⟨Or.inl rfl, jumps_retainLoop e a _ 0 x⟩

theorem jumps_collectCode (t : Tenant E) (topK : Nat) (filter : Filter) (raw : List (UInt64 × S))
    (out : List (Hit F S)) (x : Dir E × Inner E) :
    (collectCode t topK filter raw out).Jumps diskView x := by
  induction raw generalizing out with
  | nil => exact jumps_leave _ x
  | cons c raw ih =>
    apply jumps_read
    cases x.2.sidecar.get ⟨c.1⟩ with
    | none => exact ih out
    | some e =>
      dsimp only
      split
      · apply jumps_read
        split
        · exact jumps_leave _ x
        · exact ih _
      · exact ih out

theorem jumps_iterCode (records : List RecordEntry) (out : List (RecordId × List F))
    (x : Dir E × Inner E) : (iterCode records out).Jumps diskView x := by
  induction records generalizing out with
  | nil => exact jumps_leave _ x
  | cons rec_ records ih =>
    apply jumps_read
    rcases E.get x.2.index rec_.recordId with e | v
    · exact ih out
    · cases v with
      | none => exact ih out
      | some v => exact ih _

/-- The write to the sidecar is in memory. -/
theorem jumps_upsertCode (entry : RecordEntry) {rest : CallCode E} (h : rest.Jumps diskView)
    (x : Dir E × Inner E) : (upsertCode entry rest).Jumps diskView x := by
  apply jumps_read
  cases x.2.sidecar.records.findIdx? fun y => y.recordId == entry.recordId with
  | none => exact ⟨Or.inl rfl, h⟩
  | some pos => exact ⟨Or.inl rfl, h⟩

/-- After a step that changes the files, the rest of the section leaves them. -/
theorem jumps_change {f : Dir E × Inner E → Dir E × Inner E}
    {next : Dir E × Inner E → CallSection E .inner} {x : Dir E × Inner E}
    (hend : ((next x).finish (f x)).1.1 = (f x).1) (h : (next x).Jumps diskView (f x)) :
    (change f next).Jumps diskView x :=
  ⟨Or.inr (congrArg some hend.symm), h⟩

variable (J : SerdeJson) (t : Tenant E)

theorem jumps_insertCode (env : E.Env) (r : Record F) : (insertCode t env r).Jumps diskView := by
  rw [insertCode]
  split
  · trivial
  split
  · trivial
  intro x
  apply jumps_change
  · cases (E.insert env x.1.engine x.2.index r.recordId.val r.embedding).2 with
    | error e => rfl
    | ok u =>
      dsimp only
      rw [finish_upsertCode]
      rfl
  · cases (E.insert env x.1.engine x.2.index r.recordId.val r.embedding).2 with
    | error e => exact jumps_leave _ _
    | ok u => exact jumps_upsertCode _ (jumps_emitCode _ _) _

theorem jumps_deleteCode (id : RecordId) : (deleteCode t id).Jumps diskView := by
  rw [deleteCode]
  split
  · trivial
  intro x
  apply jumps_read
  refine ⟨Or.inl rfl, ?_⟩
  apply jumps_read
  change Code.Jumps diskView (if _ then _ else _)
  split
  · exact jumps_emitCode _ _
  · trivial

theorem jumps_flushCode (o : WriteOutcome) : (flushCode J t o).Jumps diskView := by
  rw [flushCode]
  split
  · trivial
  intro x
  apply jumps_change
  · rfl
  · exact jumps_leave _ _

theorem jumps_consolidateCode (env : E.Env) : (consolidateCode t env).Jumps diskView := by
  rw [consolidateCode]
  split
  · trivial
  intro x
  apply jumps_change
  · cases (E.consolidate env x.1.engine x.2.index).2 with
    | error e => rfl
    | ok u => rfl
  · cases (E.consolidate env x.1.engine x.2.index).2 with
    | error e => exact jumps_leave _ _
    | ok u => exact jumps_leave _ _

theorem jumps_queryCode (embedding : List F) (topK : UInt32) (filter : Filter) :
    (queryCode t embedding topK filter).Jumps diskView := by
  rw [queryCode]
  split
  · trivial
  intro x
  apply jumps_read
  cases E.search x.2.index embedding (oversample topK) with
  | error e => exact jumps_leave _ x
  | ok raw => exact jumps_collectCode t _ filter raw [] x

/-- The directory changes at most once in every section of every call. -/
theorem codeOf_jumps (c : Call E) : (codeOf J t c).Jumps diskView := by
  cases c with
  | insert env r => exact jumps_insertCode t env r
  | delete id => exact jumps_deleteCode t id
  | flush o => exact jumps_flushCode J t o
  | consolidate env => exact jumps_consolidateCode t env
  | queryFiltered embedding topK filter => exact jumps_queryCode t embedding topK filter
  | iterVectors => exact fun x => jumps_read (jumps_iterCode x.2.sidecar.records [] x)
  | recordCount => exact fun x => jumps_read (jumps_leave _ x)
  | embeddingDim => trivial
  | subscribe stream => exact fun x => ⟨Or.inl rfl, trivial⟩

end Jumps

/-! ## What a history promises -/

section Histories

variable {T : Type}

/-- The history shows a call that deletes the id. -/
def DeleteCalled (h : List (Visible T (Call E) (Answer F S))) (id : RecordId) : Prop :=
  ∃ u, Visible.invoked u (.delete id) ∈ h

theorem DeleteCalled.append {h : List (Visible T (Call E) (Answer F S))} {id : RecordId}
    (hdel : DeleteCalled h id) (later : List (Visible T (Call E) (Answer F S))) :
    DeleteCalled (h ++ later) id := by
  obtain ⟨u, hu⟩ := hdel
  exact ⟨u, List.mem_append_left _ hu⟩

variable [DecidableEq T]

/-- The latest call of a thread, behind what was seen before it. -/
def lastCall (u : T) (h : List (Visible T (Call E) (Answer F S))) :
    Option (List (Visible T (Call E) (Answer F S)) × Call E) :=
  (h.foldl (fun seen x =>
    (seen.1 ++ [x],
      match x with
      | .invoked v c => if v = u then some (seen.1, c) else seen.2
      | .answered _ _ => seen.2)) ([], none)).2

/-- The history shows the answer `a` to the call `c`, which was made after `before`. -/
def Answered (h before : List (Visible T (Call E) (Answer F S))) (c : Call E) (a : Answer F S) :
    Prop :=
  ∃ pre u post, h = pre ++ .answered u a :: post ∧ lastCall u pre = some (before, c)

/-- What an answer promises of the directory's history `marks` and the ids `listed` in memory. An
insert that was answered `Ok` is in the first, and its id in the second until a delete is called. A
flush that was answered `Ok` wrote the ids whose inserts were answered before it was called. -/
def Promised (readOnly : Bool) (h : List (Visible T (Call E) (Answer F S))) (marks : List (Mark F))
    (listed : List UInt64) (before : List (Visible T (Call E) (Answer F S))) :
    Call E → Answer F S → Prop
  | .insert _ r, .inserted (.ok ()) =>
    Mark.inserted r ∈ marks ∧ (DeleteCalled h r.recordId ∨ r.recordId.val ∈ listed)
  | .flush _, .flushed (.ok ()) =>
    readOnly = false → ∀ first env r, Answered before first (.insert env r) (.inserted (.ok ())) →
      DeleteCalled h r.recordId ∨ ∃ w ∈ History.written marks, r.recordId.val ∈ w.ids
  | _, _ => True

theorem foldl_seen {X Y : Type} (f : List X → Y → X → Y) (h : List X) (s : List X × Y) :
    (h.foldl (fun seen x => (seen.1 ++ [x], f seen.1 seen.2 x)) s).1 = s.1 ++ h := by
  induction h generalizing s with
  | nil => simp
  | cons x h ih => simp [ih]

theorem lastCall_invoked (u v : T) (c : Call E) (h : List (Visible T (Call E) (Answer F S))) :
    lastCall u (h ++ [.invoked v c]) = if v = u then some (h, c) else lastCall u h := by
  unfold lastCall
  rw [List.foldl_append, List.foldl_cons, List.foldl_nil]
  have hseen := foldl_seen
    (fun (seen : List (Visible T (Call E) (Answer F S)))
      (y : Option (List (Visible T (Call E) (Answer F S)) × Call E)) x =>
      match x with
      | .invoked v c => if v = u then some (seen, c) else y
      | .answered _ _ => y) h ([], none)
  dsimp only at hseen ⊢
  rw [hseen, List.nil_append]

theorem lastCall_answered (u v : T) (a : Answer F S)
    (h : List (Visible T (Call E) (Answer F S))) :
    lastCall u (h ++ [.answered v a]) = lastCall u h := by
  unfold lastCall
  rw [List.foldl_append, List.foldl_cons, List.foldl_nil]

/-- An answer stays in the history. -/
theorem Answered.append {h before : List (Visible T (Call E) (Answer F S))} {c : Call E}
    {a : Answer F S} (hans : Answered h before c a)
    (later : List (Visible T (Call E) (Answer F S))) : Answered (h ++ later) before c a := by
  obtain ⟨pre, u, post, rfl, hlast⟩ := hans
  exact ⟨pre, u, post ++ later, by simp, hlast⟩

/-- An answer of a longer history is an answer of the shorter one, or it is the last event. -/
theorem Answered.of_append {h before : List (Visible T (Call E) (Answer F S))} {c : Call E}
    {a : Answer F S} {x : Visible T (Call E) (Answer F S)} (hans : Answered (h ++ [x]) before c a) :
    Answered h before c a ∨ ∃ u, x = .answered u a ∧ lastCall u h = some (before, c) := by
  obtain ⟨pre, u, post, heq, hlast⟩ := hans
  rcases List.eq_nil_or_concat post with rfl | ⟨post', y, rfl⟩
  · obtain ⟨rfl, hx⟩ := List.append_inj' heq rfl
    exact Or.inr ⟨u, by simpa using hx, hlast⟩
  · have heq' : h ++ [x] = (pre ++ .answered u a :: post') ++ [y] := by simpa using heq
    obtain ⟨rfl, -⟩ := List.append_inj' heq' rfl
    exact Or.inl ⟨pre, u, post', rfl, hlast⟩

/-- What was promised stays so when more is seen. -/
theorem Promised.seen {readOnly : Bool} {h before : List (Visible T (Call E) (Answer F S))}
    {marks : List (Mark F)} {listed : List UInt64} {c : Call E} {a : Answer F S}
    (hp : Promised readOnly h marks listed before c a)
    (later : List (Visible T (Call E) (Answer F S))) :
    Promised readOnly (h ++ later) marks listed before c a := by
  unfold Promised at hp ⊢
  split
  · exact ⟨hp.1, hp.2.imp_left fun hdel => hdel.append later⟩
  · intro hro first env r hr
    exact (hp hro first env r hr).imp_left fun hdel => hdel.append later
  · trivial

end Histories

/-! ## A run of calls is a sequential session -/

section Sequential

variable (J : SerdeJson) (dir : PathBuf)

/-- The tenant with other subscribers. -/
def withSubscribers (t : Tenant E) (subs : List Channel) : Tenant E :=
  { t with subscribers := subs }

theorem insertState_withSubscribers (env : E.Env) (files : Dir E) (t : Tenant E) (r : Record F)
    (subs : List Channel) :
    insertState env files (t.withSubscribers subs) r =
      ((insertState env files t r).1, (insertState env files t r).2.1.withSubscribers subs,
        (insertState env files t r).2.2) := by
  have hro : (t.withSubscribers subs).readOnly = t.readOnly := rfl
  have hdim : (t.withSubscribers subs).embeddingDim = t.embeddingDim := rfl
  have hinner : (t.withSubscribers subs).inner = t.inner := rfl
  simp only [insertState, hro, hdim, hinner]
  split
  · rfl
  split
  · rfl
  generalize E.insert env files.engine t.inner.index r.recordId.val r.embedding = res
  obtain ⟨⟨engine, index⟩, e | u⟩ := res
  · rfl
  · rfl

theorem deleteState_withSubscribers (t : Tenant E) (id : RecordId) (subs : List Channel) :
    deleteState (t.withSubscribers subs) id =
      ((deleteState t id).1.withSubscribers subs, (deleteState t id).2) := by
  have hro : (t.withSubscribers subs).readOnly = t.readOnly := rfl
  simp only [deleteState, hro]
  split
  · rfl
  · rfl

theorem consolidate_withSubscribers (env : E.Env) (files : Dir E) (t : Tenant E)
    (subs : List Channel) :
    Tenant.consolidate env files (t.withSubscribers subs) =
      ((Tenant.consolidate env files t).1,
        (Tenant.consolidate env files t).2.1.withSubscribers subs,
        (Tenant.consolidate env files t).2.2) := by
  have hro : (t.withSubscribers subs).readOnly = t.readOnly := rfl
  have hinner : (t.withSubscribers subs).inner = t.inner := rfl
  simp only [Tenant.consolidate, hro, hinner]
  split
  · rfl
  generalize E.consolidate env files.engine t.inner.index = res
  obtain ⟨⟨engine, index⟩, e | u⟩ := res
  · rfl
  · rfl

/-- The operation of a session that a call is; the reading calls are none. -/
def sessionOps : Call E → List (Session.Op E)
  | .insert env r => [.insert env r]
  | .delete id => [.delete id]
  | .flush o => [.flush o]
  | .consolidate env => [.consolidate env]
  | _ => []

/-- The part of a call under the inner lock, as an operation of a session. `marks` is what it adds
to the history. -/
structure SessionStep (s s' : Session E) (c : Call E)
    (o : Dir E × Tenant E × Option Event × Answer F S) (marks : List (Mark F)) : Prop where
  files : s'.files = o.1
  handle : ∃ subs, s'.handle = some (o.2.1.withSubscribers subs)
  history : s'.history = marks ++ s.history
  readOnly : ∀ t, s.handle = some t → o.2.1.readOnly = t.readOnly
  inserted : ∀ r, Mark.inserted r ∈ marks → ∃ env, c = .insert env r
  insertOk : ∀ env r, c = .insert env r → o.2.2.2 = .inserted (.ok ()) →
    Mark.inserted r ∈ marks ∧ r.recordId.val ∈ o.2.1.inner.sidecar.ids
  flushOk : ∀ w, c = .flush w → o.2.2.2 = .flushed (.ok ()) → o.2.1.readOnly = false →
    ∃ w, marks = [.wrote w]
  wrote : ∀ w, Mark.wrote w ∈ marks → marks = [.wrote w] ∧ w = o.2.1.inner.sidecar
  listed : ∀ t, s.handle = some t → ∀ id ∈ t.inner.sidecar.ids,
    id ∈ o.2.1.inner.sidecar.ids ∨ c = .delete ⟨id⟩

/-- The handle of the session is the tenant, but for the subscribers. -/
theorem handle_eq {s : Session E} {t h : Tenant E} {subs : List Channel}
    (ht : s.handle = some (t.withSubscribers subs)) (hh : s.handle = some h) :
    h.readOnly = t.readOnly ∧ h.inner = t.inner := by
  rw [ht, Option.some.injEq] at hh
  rw [← hh]
  exact ⟨rfl, rfl⟩

/-- A call that leaves the records adds nothing to the history. -/
theorem SessionStep.quiet {s s' : Session E} {c : Call E} {t t' : Tenant E} {files : Dir E}
    {event : Option Event} {r : Answer F S} {subs : List Channel}
    (ht : s.handle = some (t.withSubscribers subs)) (hfiles : s'.files = files)
    (hhandle : ∃ subs, s'.handle = some (t'.withSubscribers subs))
    (hhistory : s'.history = s.history) (hro : t'.readOnly = t.readOnly)
    (hlisted : ∀ id ∈ t.inner.sidecar.ids, id ∈ t'.inner.sidecar.ids ∨ c = .delete ⟨id⟩)
    (hinsert : ∀ env x, c = .insert env x → r ≠ .inserted (.ok ()))
    (hflush : ∀ o, c = .flush o → r = .flushed (.ok ()) → t'.readOnly = true) :
    SessionStep s s' c (files, t', event, r) [] where
  files := hfiles
  handle := hhandle
  history := hhistory
  readOnly h hh := by rw [(handle_eq ht hh).1, hro]
  inserted x hx := by simp at hx
  insertOk env x hc hr := absurd hr (hinsert env x hc)
  flushOk o hc hr hrw := by
    rw [hflush o hc hr] at hrw
    cases hrw
  wrote w hw := by simp at hw
  listed h hh id hid := by
    rw [(handle_eq ht hh).2] at hid
    exact hlisted id hid

theorem perform_insert {s : Session E} {files : Dir E} {t : Tenant E} (hfiles : s.files = files)
    {subs : List Channel} (ht : s.handle = some (t.withSubscribers subs)) (env : E.Env)
    (r : Record F) :
    ∃ marks, SessionStep s (Session.step J dir s (.insert env r)) (.insert env r)
      (perform J files t (.insert env r)) marks := by
  subst hfiles
  have hro : (insertState env s.files t r).2.1.readOnly = t.readOnly := by
    generalize ho : insertState env s.files t r = o
    obtain ⟨files', t', res⟩ := o
    rcases insertState_ends ho with ⟨-, rfl, -⟩ | ⟨-, _, _, _, -, -, ⟨-, rfl⟩ | ⟨-, -, rfl⟩⟩
    · rfl
    · rfl
    · rfl
  have hsidecar := (insertState_sidecar env s.files t r).2
  simp only [Session.step, ht, insert_eq, insertState_withSubscribers, perform]
  generalize insertState env s.files t r = o at hro hsidecar
  obtain ⟨files', t', res⟩ := o
  cases res with
  | error e =>
    refine ⟨[], SessionStep.quiet ht rfl ⟨subs, rfl⟩ rfl hro ?_ ?_ (by simp)⟩
    · intro id hid
      rw [hsidecar]
      exact Or.inl hid
    · intro env' r' _
      simp
  | ok u =>
    -- the id of the record is listed now, and every other id still is
    have hids : ∀ id, id ∈ t'.inner.sidecar.ids ↔
        id = r.recordId.val ∨ id ∈ t.inner.sidecar.ids := by
      intro id
      rw [hsidecar]
      exact Keyed.mem_map_key_upsert RecordEntry.recordId id r.entry t.inner.sidecar.records
    refine ⟨[.inserted r], rfl, ⟨_, rfl⟩, rfl, ?_, ?_, ?_, by simp, by simp, ?_⟩
    · intro h hh
      rw [(handle_eq ht hh).1]
      exact hro
    · intro r' hr'
      simp only [List.mem_singleton, Mark.inserted.injEq] at hr'
      exact ⟨env, by rw [hr']⟩
    · intro env' r' hc _
      cases hc
      exact ⟨List.mem_singleton_self _, (hids _).2 (Or.inl rfl)⟩
    · intro h hh id hid
      rw [(handle_eq ht hh).2] at hid
      exact Or.inl ((hids id).2 (Or.inr hid))

theorem perform_delete {s : Session E} {files : Dir E} {t : Tenant E} (hfiles : s.files = files)
    {subs : List Channel} (ht : s.handle = some (t.withSubscribers subs)) (id : RecordId) :
    ∃ marks, SessionStep s (Session.step J dir s (.delete id)) (.delete id)
      (perform J files t (.delete id)) marks := by
  subst hfiles
  have hends : (deleteState t id).1.readOnly = t.readOnly ∧
      ∀ k ∈ t.inner.sidecar.ids, k ∈ (deleteState t id).1.inner.sidecar.ids ∨
        Call.delete id = (Call.delete ⟨k⟩ : Call E) := by
    rcases deleteState_cases t id with ⟨-, hdel⟩ | ⟨-, hdel⟩
    · rw [hdel]
      exact ⟨rfl, fun k hk => Or.inl hk⟩
    · rw [hdel]
      refine ⟨rfl, ?_⟩
      intro k hk
      by_cases hkid : k = id.val
      · subst hkid
        exact Or.inr rfl
      · refine Or.inl ?_
        exact (Keyed.mem_map_key_remove RecordEntry.recordId id.val k _).2 ⟨hk, hkid⟩
  simp only [Session.step, ht, delete, deleteState_withSubscribers, perform]
  generalize deleteState t id = o at hends
  obtain ⟨t', res⟩ := o
  obtain ⟨hro, hlisted⟩ := hends
  refine ⟨[], ?_⟩
  rcases res with e | removed
  · exact SessionStep.quiet ht rfl ⟨subs, rfl⟩ rfl hro hlisted (by simp) (by simp)
  · cases removed with
    | false => exact SessionStep.quiet ht rfl ⟨subs, rfl⟩ rfl hro hlisted (by simp) (by simp)
    | true => exact SessionStep.quiet ht rfl ⟨_, rfl⟩ rfl hro hlisted (by simp) (by simp)

theorem perform_flush {s : Session E} {files : Dir E} {t : Tenant E} (hfiles : s.files = files)
    {subs : List Channel} (ht : s.handle = some (t.withSubscribers subs)) (o : WriteOutcome) :
    ∃ marks, SessionStep s (Session.step J dir s (.flush o)) (.flush o)
      (perform J files t (.flush o)) marks := by
  subst hfiles
  have hsame : (t.withSubscribers subs).flush J o s.files = t.flush J o s.files := rfl
  have hro : (t.withSubscribers subs).readOnly = t.readOnly := rfl
  have hlisted : ∀ id ∈ t.inner.sidecar.ids, id ∈ t.inner.sidecar.ids ∨
      Call.flush o = (Call.delete ⟨id⟩ : Call E) := fun id hid => Or.inl hid
  simp only [Session.step, ht, hsame, perform]
  generalize t.flush J o s.files = res
  obtain ⟨files', e | u⟩ := res
  · exact ⟨[], SessionStep.quiet ht rfl ⟨subs, ht⟩ rfl rfl hlisted (by simp) (by simp)⟩
  · simp only [Session.flushed, hro]
    -- a read-only handle answers `Ok` and writes nothing
    cases ht' : t.readOnly with
    | true =>
      exact ⟨[], SessionStep.quiet ht rfl ⟨subs, ht⟩ rfl rfl hlisted (by simp) fun _ _ _ => ht'⟩
    | false =>
      refine ⟨[.wrote t.inner.sidecar], rfl, ⟨subs, ht⟩, rfl, ?_, by simp, by simp, ?_, ?_, ?_⟩
      · intro h hh
        exact (handle_eq ht hh).1.symm
      · intro w _ _ _
        exact ⟨_, rfl⟩
      · intro w hw
        simp only [List.mem_singleton, Mark.wrote.injEq] at hw
        exact ⟨by rw [hw], hw⟩
      · intro h hh id hid
        rw [(handle_eq ht hh).2] at hid
        exact Or.inl hid

theorem perform_consolidate {s : Session E} {files : Dir E} {t : Tenant E}
    (hfiles : s.files = files) {subs : List Channel}
    (ht : s.handle = some (t.withSubscribers subs)) (env : E.Env) :
    ∃ marks, SessionStep s (Session.step J dir s (.consolidate env)) (.consolidate env)
      (perform J files t (.consolidate env)) marks := by
  subst hfiles
  have hends : (Tenant.consolidate env s.files t).2.1.readOnly = t.readOnly ∧
      (Tenant.consolidate env s.files t).2.1.inner.sidecar = t.inner.sidecar := by
    generalize ho : Tenant.consolidate env s.files t = o
    obtain ⟨files', t', res⟩ := o
    rcases consolidate_ends ho with ⟨-, rfl⟩ | ⟨_, _, _, -, -, rfl⟩
    · exact ⟨rfl, rfl⟩
    · exact ⟨rfl, rfl⟩
  simp only [Session.step, ht, consolidate_withSubscribers, perform]
  generalize Tenant.consolidate env s.files t = o at hends
  obtain ⟨files', t', res⟩ := o
  obtain ⟨hro, hsidecar⟩ := hends
  refine ⟨[], SessionStep.quiet ht rfl ⟨subs, rfl⟩ rfl hro ?_ (by simp) (by simp)⟩
  intro id hid
  rw [hsidecar]
  exact Or.inl hid

/-- The part of every call under the inner lock is at most one operation of the session. -/
theorem perform_session {s : Session E} {files : Dir E} {t : Tenant E} (hfiles : s.files = files)
    {subs : List Channel} (ht : s.handle = some (t.withSubscribers subs)) (c : Call E) :
    ∃ marks, SessionStep s (Runs.run (Session.step J dir) s (sessionOps c)) c
      (perform J files t c) marks := by
  cases c with
  | insert env r => exact perform_insert J dir hfiles ht env r
  | delete id => exact perform_delete J dir hfiles ht id
  | flush o => exact perform_flush J dir hfiles ht o
  | consolidate env => exact perform_consolidate J dir hfiles ht env
  | subscribe stream =>
    exact ⟨[], SessionStep.quiet ht hfiles ⟨subs, ht⟩ rfl rfl (fun _ hid => Or.inl hid)
      (by simp) (by simp)⟩
  | _ =>
    exact ⟨[], SessionStep.quiet ht hfiles ⟨subs, ht⟩ rfl rfl (fun _ hid => Or.inl hid)
      (by simp) (by simp)⟩

/-! ### Along a run -/

/-- After a call the ids that were listed still are, but for the deleted ones. -/
theorem SessionStep.keeps {T : Type} {s s' : Session E} {c : Call E} {t : Tenant E}
    {subs : List Channel} {o : Dir E × Tenant E × Option Event × Answer F S} {marks : List (Mark F)}
    (hstep : SessionStep s s' c o marks) (ht : s.handle = some (t.withSubscribers subs))
    {h : List (Visible T (Call E) (Answer F S))} (hcalled : ∃ u, Visible.invoked u c ∈ h)
    {id : RecordId} (hid : DeleteCalled h id ∨ id.val ∈ t.inner.sidecar.ids) :
    DeleteCalled h id ∨ id.val ∈ o.2.1.inner.sidecar.ids := by
  rcases hid with hdel | hid
  · exact Or.inl hdel
  · rcases hstep.listed _ ht id.val hid with hkept | rfl
    · exact Or.inr hkept
    · exact Or.inl hcalled

variable {T : Type} [DecidableEq T]

/-- The answer a thread is about to return. -/
def Phase.answer : Phase E → Option (Answer F S)
  | .idle => none
  | .called _ => none
  | .emitting _ a => some a
  | .returning a => some a

theorem answer_after (event : Option Event) (a : Answer F S) :
    (Phase.after event a : Phase E).answer = some a := by
  cases event with
  | none => rfl
  | some e => rfl

theorem after_ne_called (event : Option Event) (a : Answer F S) (c : Call E) :
    (Phase.after event a : Phase E) ≠ .called c := by
  cases event with
  | none => simp [Phase.after]
  | some e => simp [Phase.after]

/-- The latest call is in the history, right behind what was seen before it. -/
theorem split_of_lastCall {u : T} {h before : List (Visible T (Call E) (Answer F S))} {c : Call E}
    (hlast : lastCall u h = some (before, c)) :
    ∃ later, h = before ++ .invoked u c :: later := by
  induction h using List.reverseRecOn with
  | nil => simp [lastCall] at hlast
  | append_singleton h x ih =>
    cases x with
    | invoked v c' =>
      rw [lastCall_invoked] at hlast
      split at hlast
      · rename_i hvu
        simp only [Option.some.injEq, Prod.mk.injEq] at hlast
        exact ⟨[], by rw [hlast.1, hlast.2, hvu]⟩
      · obtain ⟨later, rfl⟩ := ih hlast
        exact ⟨later ++ [.invoked v c'], by simp⟩
    | answered v r =>
      rw [lastCall_answered] at hlast
      obtain ⟨later, rfl⟩ := ih hlast
      exact ⟨later ++ [.answered v r], by simp⟩

/-- What was seen before an answered call is the beginning of the history. -/
theorem Answered.prefix {h before : List (Visible T (Call E) (Answer F S))} {c : Call E}
    {a : Answer F S} (hans : Answered h before c a) : before <+: h := by
  obtain ⟨pre, u, post, rfl, hlast⟩ := hans
  obtain ⟨later, rfl⟩ := split_of_lastCall hlast
  exact ⟨.invoked u c :: later ++ .answered u a :: post, by simp⟩

section Step

variable {ro : Bool} {s s' : Session E} {c : Call E} {t : Tenant E} {subs : List Channel}
  {o : Dir E × Tenant E × Option Event × Answer F S} {marks : List (Mark F)}
  {h before : List (Visible T (Call E) (Answer F S))}

/-- The sidecar last written, when the call wrote none. -/
theorem written_marks (hstep : SessionStep s s' c o marks)
    (hnone : ∀ w, Mark.wrote w ∉ marks) :
    History.written s'.history = History.written s.history := by
  rw [hstep.history]
  have hall : ∀ l : List (Mark F), (∀ w, Mark.wrote w ∉ l) →
      History.written (l ++ s.history) = History.written s.history := by
    intro l hl
    induction l with
    | nil => rfl
    | cons m l ih =>
      cases m with
      | inserted r =>
        rw [List.cons_append, History.written_inserted]
        exact ih fun w hw => hl w (List.mem_cons_of_mem _ hw)
      | wrote w => exact absurd List.mem_cons_self (hl w)
  exact hall marks hnone

/-- A promise is kept by the calls of the other threads. -/
theorem SessionStep.promise_kept (hstep : SessionStep s s' c o marks)
    (ht : s.handle = some (t.withSubscribers subs)) (hcalled : ∃ u, Visible.invoked u c ∈ h)
    (hold : ∀ first c r, Answered h first c r →
      Promised ro h s.history t.inner.sidecar.ids first c r)
    (hbefore : before <+: h) {c' : Call E} {r : Answer F S}
    (hp : Promised ro h s.history t.inner.sidecar.ids before c' r) :
    Promised ro h s'.history o.2.1.inner.sidecar.ids before c' r := by
  unfold Promised at hp ⊢
  split
  · refine ⟨?_, hstep.keeps ht hcalled hp.2⟩
    rw [hstep.history]
    exact List.mem_append_right _ hp.1
  · intro hrw first env x hx
    by_cases hnone : ∀ w, Mark.wrote w ∉ marks
    · rw [written_marks hstep hnone]
      exact hp hrw first env x hx
    · -- a later flush wrote the ids that were listed then
      push Not at hnone
      obtain ⟨w, hw⟩ := hnone
      obtain ⟨hmarks, hsidecar⟩ := hstep.wrote w hw
      obtain ⟨later, rfl⟩ := hbefore
      have hx' := (hold first _ _ (hx.append later)).2
      refine (hstep.keeps ht hcalled hx').imp_right fun hid => ⟨w, ?_, hsidecar ▸ hid⟩
      rw [hstep.history, hmarks]
      rfl
  · trivial

/-- When its part under the inner lock is done, the answer of a call is already promised. -/
theorem SessionStep.promised (hstep : SessionStep s s' c o marks)
    (ht : s.handle = some (t.withSubscribers subs)) (hro : o.2.1.readOnly = ro)
    (hcalled : ∃ u, Visible.invoked u c ∈ h)
    (hold : ∀ first c r, Answered h first c r →
      Promised ro h s.history t.inner.sidecar.ids first c r)
    (hbefore : before <+: h) :
    Promised ro h s'.history o.2.1.inner.sidecar.ids before c o.2.2.2 := by
  unfold Promised
  split
  · rename_i env r hans
    obtain ⟨hmark, hid⟩ := hstep.insertOk env r rfl hans
    rw [hstep.history]
    exact ⟨List.mem_append_left _ hmark, Or.inr hid⟩
  · rename_i w hans
    intro hrw first env x hx
    obtain ⟨w', hmarks⟩ := hstep.flushOk w rfl hans (hro.trans hrw)
    have hsidecar := (hstep.wrote w' (by rw [hmarks]; exact List.mem_singleton_self _)).2
    obtain ⟨later, rfl⟩ := hbefore
    have hx' := (hold first _ _ (hx.append later)).2
    refine (hstep.keeps ht hcalled hx').imp_right fun hid => ⟨w', ?_, hsidecar ▸ hid⟩
    rw [hstep.history, hmarks]
    rfl
  · trivial

end Step

/-- A session that does what the calls did: it has their files and, but for the subscribers, their
tenant, and its history has what the answers promised. `old` is the history before the calls. -/
structure Follows (ro : Bool) (old : List (Mark F)) (a : Calls E T) (s : Session E) : Prop where
  files : s.files = a.files
  handle : ∃ subs, s.handle = some (a.tenant.withSubscribers subs)
  readOnly : a.tenant.readOnly = ro
  called : ∀ u c, a.threads u = .called c → ∃ before, lastCall u a.history = some (before, c)
  answering : ∀ u r, (a.threads u).answer = some r →
    ∃ before c, lastCall u a.history = some (before, c) ∧
      Promised ro a.history s.history a.tenant.inner.sidecar.ids before c r
  answered : ∀ before c r, Answered a.history before c r →
    Promised ro a.history s.history a.tenant.inner.sidecar.ids before c r
  origin : ∀ r, Mark.inserted r ∈ s.history →
    Mark.inserted r ∈ old ∨ ∃ u env, Visible.invoked u (.insert env r) ∈ a.history

variable {ro : Bool} {old : List (Mark F)} {a : Calls E T} {s : Session E}

/-- A thread calls. -/
theorem Follows.invoke (hs : Follows ro old a s) (u : T) (c : Call E) :
    Follows ro old (Calls.step J a (.invoke u c)) s := by
  cases hu : a.threads u with
  | idle =>
    simp only [Calls.step, hu]
    refine ⟨hs.files, hs.handle, hs.readOnly, ?_, ?_, ?_, ?_⟩
    · intro v c' hv
      by_cases hvu : v = u
      · subst hvu
        simp only [Function.update_self, Phase.called.injEq] at hv
        subst hv
        exact ⟨a.history, by rw [lastCall_invoked, if_pos rfl]⟩
      · simp only [Function.update_of_ne hvu] at hv
        rw [lastCall_invoked, if_neg (Ne.symm hvu)]
        exact hs.called v c' hv
    · intro v r hv
      by_cases hvu : v = u
      · subst hvu
        simp [Phase.answer] at hv
      · simp only [Function.update_of_ne hvu] at hv
        obtain ⟨before, c', hlast, hp⟩ := hs.answering v r hv
        rw [lastCall_invoked, if_neg (Ne.symm hvu)]
        exact ⟨before, c', hlast, hp.seen _⟩
    · intro before c' r hans
      rcases hans.of_append with hans' | ⟨v, hv, -⟩
      · exact (hs.answered before c' r hans').seen _
      · cases hv
    · intro r hr
      rcases hs.origin r hr with hold | ⟨v, env, hv⟩
      · exact Or.inl hold
      · exact Or.inr ⟨v, env, List.mem_append_left _ hv⟩
  | _ =>
    simp only [Calls.step, hu]
    exact hs

/-- A thread does its part under the inner lock, and so does the session. -/
theorem Follows.perform (hs : Follows ro old a s) {u : T} {c : Call E}
    (hu : a.threads u = .called c) :
    Follows ro old (Calls.step J a (.run u))
      (Runs.run (Session.step J dir) s (sessionOps c)) := by
  obtain ⟨subs, ht⟩ := hs.handle
  obtain ⟨marks, hstep⟩ := perform_session J dir hs.files ht c
  obtain ⟨before, hlast⟩ := hs.called u c hu
  obtain ⟨later, hsplit⟩ := split_of_lastCall hlast
  have hbefore : before <+: a.history := ⟨_, hsplit.symm⟩
  have hmem : Visible.invoked u c ∈ a.history := by
    rw [hsplit]
    exact List.mem_append_right _ List.mem_cons_self
  have hcalled : ∃ v, Visible.invoked v c ∈ a.history := ⟨u, hmem⟩
  have hro : (Tenant.perform J a.files a.tenant c).2.1.readOnly = ro :=
    (hstep.readOnly _ ht).trans hs.readOnly
  have hpromised := hstep.promised ht hro hcalled hs.answered hbefore
  simp only [Calls.step, hu]
  generalize Tenant.perform J a.files a.tenant c = o at hstep hro hpromised
  obtain ⟨files', tenant', event, r⟩ := o
  refine ⟨hstep.files, hstep.handle, hro, ?_, ?_, ?_, ?_⟩
  · intro v c' hv
    by_cases hvu : v = u
    · subst hvu
      simp only [Function.update_self] at hv
      exact absurd hv (after_ne_called event r c')
    · simp only [Function.update_of_ne hvu] at hv
      exact hs.called v c' hv
  · intro v r' hv
    by_cases hvu : v = u
    · subst hvu
      simp only [Function.update_self, answer_after, Option.some.injEq] at hv
      subst hv
      exact ⟨before, c, hlast, hpromised⟩
    · simp only [Function.update_of_ne hvu] at hv
      obtain ⟨before', c', hlast', hp⟩ := hs.answering v r' hv
      obtain ⟨later', hsplit'⟩ := split_of_lastCall hlast'
      exact ⟨before', c', hlast',
        hstep.promise_kept ht hcalled hs.answered ⟨_, hsplit'.symm⟩ hp⟩
  · intro before' c' r' hans
    exact hstep.promise_kept ht hcalled hs.answered hans.prefix (hs.answered before' c' r' hans)
  · intro r' hr'
    rw [hstep.history] at hr'
    rcases List.mem_append.1 hr' with hnew | hold
    · obtain ⟨env, rfl⟩ := hstep.inserted r' hnew
      -- the insert was called before it was performed
      exact Or.inr ⟨u, env, hmem⟩
    · exact hs.origin r' hold

/-- A thread broadcasts: the answer it will return is promised already. -/
theorem Follows.emit (hs : Follows ro old a s) {u : T} {e : Event} {r : Answer F S}
    (hu : a.threads u = .emitting e r) : Follows ro old (Calls.step J a (.run u)) s := by
  obtain ⟨subs, ht⟩ := hs.handle
  simp only [Calls.step, hu]
  refine ⟨hs.files, ⟨subs, ht⟩, hs.readOnly, ?_, ?_, hs.answered, hs.origin⟩
  · intro v c' hv
    by_cases hvu : v = u
    · subst hvu
      simp at hv
    · simp only [Function.update_of_ne hvu] at hv
      exact hs.called v c' hv
  · intro v r' hv
    by_cases hvu : v = u
    · subst hvu
      simp only [Function.update_self] at hv
      apply hs.answering v r'
      rw [hu]
      exact hv
    · simp only [Function.update_of_ne hvu] at hv
      exact hs.answering v r' hv

/-- A thread returns its answer. -/
theorem Follows.reply (hs : Follows ro old a s) {u : T} {r : Answer F S}
    (hu : a.threads u = .returning r) : Follows ro old (Calls.step J a (.run u)) s := by
  have hpromise := hs.answering u r (by rw [hu]; rfl)
  simp only [Calls.step, hu]
  refine ⟨hs.files, hs.handle, hs.readOnly, ?_, ?_, ?_, ?_⟩
  · intro v c' hv
    by_cases hvu : v = u
    · subst hvu
      simp at hv
    · simp only [Function.update_of_ne hvu] at hv
      rw [lastCall_answered]
      exact hs.called v c' hv
  · intro v r' hv
    by_cases hvu : v = u
    · subst hvu
      simp [Phase.answer] at hv
    · simp only [Function.update_of_ne hvu] at hv
      obtain ⟨before, c, hlast, hp⟩ := hs.answering v r' hv
      rw [lastCall_answered]
      exact ⟨before, c, hlast, hp.seen _⟩
  · intro before c r' hans
    rcases hans.of_append with hans' | ⟨v, hv, hlast⟩
    · exact (hs.answered before c r' hans').seen _
    · simp only [Visible.answered.injEq] at hv
      obtain ⟨rfl, rfl⟩ := hv
      -- the answer is to the latest call of this thread
      obtain ⟨before', c', hlast', hp⟩ := hpromise
      rw [hlast, Option.some.injEq, Prod.mk.injEq] at hlast'
      rw [hlast'.1, hlast'.2]
      exact hp.seen _
  · intro r' hr'
    rcases hs.origin r' hr' with hold | ⟨v, env, hv⟩
    · exact Or.inl hold
    · exact Or.inr ⟨v, env, List.mem_append_left _ hv⟩

/-- Every step of the calls is at most one operation of the session. -/
theorem Follows.step (hs : Follows ro old a s) (act : Act T (Call E)) :
    ∃ ops, Follows ro old (Calls.step J a act) (Runs.run (Session.step J dir) s ops) := by
  cases act with
  | invoke u c => exact ⟨[], hs.invoke J u c⟩
  | run u =>
    cases hu : a.threads u with
    | idle =>
      refine ⟨[], ?_⟩
      simp only [Calls.step, hu]
      exact hs
    | called c => exact ⟨sessionOps c, hs.perform J dir hu⟩
    | emitting e r => exact ⟨[], hs.emit J hu⟩
    | returning r => exact ⟨[], hs.reply J hu⟩

theorem run_follows (hs : Follows ro old a s) (acts : List (Act T (Call E))) :
    ∃ ops, Follows ro old (Runs.run (Calls.step J) a acts)
      (Runs.run (Session.step J dir) s ops) := by
  induction acts generalizing a s with
  | nil => exact ⟨[], hs⟩
  | cons act acts ih =>
    obtain ⟨one, hone⟩ := hs.step J dir act
    obtain ⟨rest, hrest⟩ := ih hone
    refine ⟨one ++ rest, ?_⟩
    rw [Runs.run_cons, Runs.run_append]
    exact hrest

/-- The open handle of a session, before the first call. -/
theorem start_follows {t : Tenant E} (ht : s.handle = some t) :
    Follows t.readOnly s.history (Calls.start s.files t : Calls E T) s where
  files := rfl
  handle := ⟨t.subscribers, ht⟩
  readOnly := rfl
  called u c hu := by simp [Calls.start] at hu
  answering u r hu := by simp [Calls.start, Phase.answer] at hu
  answered before c r hans := by
    obtain ⟨pre, u, post, heq, -⟩ := hans
    simp [Calls.start] at heq
  origin r hr := Or.inl hr

end Sequential

/-! ## At any instant -/

section Stopped

variable {T : Type} [DecidableEq T]

/-- The directory that a crash leaves. -/
def crashed (J : SerdeJson) (t : Tenant E) (files : Dir E) (acts : List (Act T (Call E))) : Dir E :=
  (innerOf (interleaved J t files acts).shared).1

/-- What the threads have seen. -/
def seen (J : SerdeJson) (t : Tenant E) (files : Dir E) (acts : List (Act T (Call E))) :
    List (Visible T (Call E) (Answer F S)) :=
  (interleaved J t files acts).history

/-- Stop any interleaving of any calls on the open handle of a session at any instant. The files are
those of a session that went on one operation at a time. Its history has what the answers promised,
and every insert of it is from before or was called. -/
theorem stopped_session (J : SerdeJson) (dir : PathBuf) (ops : List (Session.Op E)) {t : Tenant E}
    (ht : (Session.runs J dir ops).handle = some t) (acts : List (Act T (Call E))) :
    ∃ more listed,
      (Session.runs J dir (ops ++ more)).files = crashed J t (Session.runs J dir ops).files acts ∧
        (∀ before c a, Answered (seen J t (Session.runs J dir ops).files acts) before c a →
          Promised t.readOnly (seen J t (Session.runs J dir ops).files acts)
            (Session.runs J dir (ops ++ more)).history listed before c a) ∧
        ∀ r, Mark.inserted r ∈ (Session.runs J dir (ops ++ more)).history →
          Mark.inserted r ∈ (Session.runs J dir ops).history ∨
            ∃ u env, Visible.invoked u (.insert env r) ∈
              seen J t (Session.runs J dir ops).files acts := by
  have hview := run_view (codeOf_jumps J t) (guarded (Session.runs J dir ops).files t) acts
    Guard.inner
  obtain ⟨mid, -, hhistory, hfiles⟩ := hview
  obtain ⟨acts', hstands⟩ := run_stands
    (start_stands (T := T) (J := J) (t := t) (Session.runs J dir ops).files) mid
  obtain ⟨more, hfollows⟩ := run_follows J dir (start_follows (T := T) ht) acts'
  have hruns : Session.runs J dir (ops ++ more) =
      Runs.run (Session.step J dir) (Session.runs J dir ops) more := Runs.run_append _ _ _ _
  have hseen := hstands.history.trans hhistory
  generalize Runs.run (Calls.step J) (Calls.start (Session.runs J dir ops).files t) acts' = a
    at hstands hfollows hseen
  have hseen' : a.history = seen J t (Session.runs J dir ops).files acts := hseen
  refine ⟨more, a.tenant.inner.sidecar.ids, ?_, ?_, ?_⟩
  · rw [hruns, hfollows.files, hstands.files]
    exact Option.some.inj hfiles
  · intro before c r hans
    rw [hruns, ← hseen']
    rw [← hseen'] at hans
    exact hfollows.answered before c r hans
  · intro r hr
    rw [hruns] at hr
    rw [← hseen']
    exact hfollows.origin r hr

/-- Stop any interleaving of any calls on an open handle at any instant, and let a later open
succeed. The index serves a vector for every insert that was answered `Ok`, and no vector but those
of inserts. Every record of the sidecar has its vector. On a read-write handle the sidecar has every
id whose insert was answered before a flush was called that was answered `Ok`, unless its delete was
called. -/
theorem reopen_stopped (M : E.Model) {J : SerdeJson} (hJ : J.Laws) (dir : PathBuf)
    (ops : List (Session.Op E)) {t : Tenant E} (ht : (Session.runs J dir ops).handle = some t)
    (acts : List (Act T (Call E))) {env : OpenEnv E} {tenantId : TenantId} {embeddingDim : UInt32}
    {files : Dir E} {t' : Tenant E}
    (hopen : Tenant.open J env dir (crashed J t (Session.runs J dir ops).files acts) tenantId
      embeddingDim = (files, .ok t')) :
    (∀ before env r, Answered (seen J t (Session.runs J dir ops).files acts) before
        (.insert env r) (.inserted (.ok ())) →
          ∃ v, M.vectors t'.inner.index r.recordId.val = some v) ∧
      (∀ id v, M.vectors t'.inner.index id = some v → ∃ r, r.recordId.val = id ∧ r.embedding = v ∧
        (Mark.inserted r ∈ (Session.runs J dir ops).history ∨ ∃ u env,
          Visible.invoked u (.insert env r) ∈ seen J t (Session.runs J dir ops).files acts)) ∧
      (∀ e ∈ t'.inner.sidecar.records, ∃ v, M.vectors t'.inner.index e.recordId = some v) ∧
      (t.readOnly = false → ∀ before o first env r,
        Answered (seen J t (Session.runs J dir ops).files acts) before (.flush o)
            (.flushed (.ok ())) →
          Answered before first (.insert env r) (.inserted (.ok ())) →
            DeleteCalled (seen J t (Session.runs J dir ops).files acts) r.recordId ∨
              r.recordId.val ∈ t'.inner.sidecar.ids) := by
  obtain ⟨more, listed, hfiles, hpromised, horigin⟩ := stopped_session J dir ops ht acts
  have hdisk := (Session.runs_inv (M := M) hJ dir (ops ++ more)).disk
  rw [hfiles] at hdisk
  have hopened := open_ok M hopen
  have hvectors := hopened.vectors.trans hdisk.stored
  generalize (Session.runs J dir (ops ++ more)).history = marks at *
  -- the sidecar is the one last written, or empty when none was
  have hsidecar : History.written marks = some t'.inner.sidecar ∨
      History.written marks = none ∧ t'.inner.sidecar.records = [] := by
    cases hm : (crashed J t (Session.runs J dir ops).files acts).metaJson with
    | none =>
      refine Or.inr ⟨hdisk.unwritten hm, ?_⟩
      rw [(hopened.fresh hm).1]
      rfl
    | some bytes => exact Or.inl (hdisk.persisted bytes _ hm (hopened.loaded bytes hm).1)
  refine ⟨?_, ?_, ?_, ?_⟩
  · intro before env' r hans
    have hmark : Mark.inserted r ∈ marks := (hpromised _ _ _ hans).1
    rw [hvectors]
    exact Option.isSome_iff_exists.1 (History.latest_isSome hmark)
  · intro id v hv
    rw [hvectors] at hv
    obtain ⟨r, hr, hid, hemb⟩ := History.inserted_of_latest hv
    exact ⟨r, hid, hemb, horigin r hr⟩
  · intro e he
    rcases hsidecar with hwritten | ⟨-, hempty⟩
    · obtain ⟨r, hr, rfl⟩ := (hdisk.listed _ hwritten).entry e he
      rw [hvectors]
      exact Option.isSome_iff_exists.1 (History.latest_isSome hr)
    · rw [hempty] at he
      cases he
  · intro hrw before o first env' r hflush hins
    rcases hpromised _ _ _ hflush hrw first env' r hins with hdel | ⟨w, hw, hid⟩
    · exact Or.inl hdel
    · rcases hsidecar with hwritten | ⟨hnone, -⟩
      · rw [hwritten] at hw
        cases hw
        exact Or.inr hid
      · rw [hnone] at hw
        cases hw

section Example

open Reference

/-- The operations that open an empty tenant. -/
def opening : List (Session.Op engine) := [.open quiet .zero 1]

/-- The tenant they open. -/
def vacant : Tenant engine := Tenant.handle home (Log.empty 1) (.empty .zero 1) .zero 1

theorem handle_opening : (Session.runs json home opening).handle = some vacant := rfl

/-- The inserts of two threads. -/
def first : Call engine := .insert false ⟨⟨1⟩, [5], true, [], []⟩

def second : Call engine := .insert false ⟨⟨2⟩, [6], true, [], []⟩

/-- What is seen before the flush. -/
def inserting : List (Visible Nat (Call engine) (Answer Int Int)) :=
  [.invoked 0 first, .invoked 1 second, .answered 0 (.inserted (.ok ()))]

/-- Two threads insert. The first is answered and flushes; the second dies behind its write to the
engine, before the sidecar has the id. -/
def dying : List (Act Nat (Call engine)) :=
  [.invoke 0 first, .run 0, .invoke 1 second, .run 1] ++ List.replicate 8 (.run 0) ++
    [.invoke 0 (.flush .done)] ++ List.replicate 4 (.run 0) ++ [.run 1, .run 1]

theorem reopen_stopped_example : ∃ files t',
    Tenant.open json quiet home (crashed json vacant (Session.runs json home opening).files dying)
        .zero 1 = (files, .ok t') ∧
      (∃ v, model.vectors t'.inner.index 1 = some v) ∧ 1 ∈ t'.inner.sidecar.ids := by
  have hopens : (Tenant.open json quiet home
      (crashed json vacant (Session.runs json home opening).files dying) .zero 1).2.isOk =
        true := by
    decide +kernel
  generalize ho : Tenant.open json quiet home
    (crashed json vacant (Session.runs json home opening).files dying) .zero 1 = o at hopens
  obtain ⟨files, res⟩ := o
  cases res with
  | error e => simp [Except.isOk, Except.toBool] at hopens
  | ok t' =>
    obtain ⟨hvector, -, -, hlisted⟩ :=
      reopen_stopped model json_laws home opening handle_opening dying ho
    have hseen : seen json vacant (Session.runs json home opening).files dying =
        inserting ++ [.invoked 0 (.flush .done), .answered 0 (.flushed (.ok ()))] := rfl
    rw [hseen] at hvector hlisted
    have hins : Answered inserting [] first (.inserted (.ok ())) :=
      ⟨[.invoked 0 first, .invoked 1 second], 0, [], rfl, rfl⟩
    have hflush : Answered
        (inserting ++ [.invoked 0 (.flush .done), .answered 0 (.flushed (.ok ()))]) inserting
        (.flush .done) (.flushed (.ok ())) :=
      ⟨inserting ++ [.invoked 0 (.flush .done)], 0, [], rfl, rfl⟩
    have hnone : ¬ DeleteCalled
        (inserting ++ [.invoked 0 (.flush .done), .answered 0 (.flushed (.ok ()))]) ⟨1⟩ := by
      simp [DeleteCalled, inserting, first, second]
    refine ⟨files, t', rfl, ?_, ?_⟩
    · exact hvector [] false _ (hins.append _)
    · exact (hlisted rfl _ _ _ _ _ hflush hins).resolve_left hnone

end Example

end Stopped

end Tenant

end SkegRigging
