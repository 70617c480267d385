import SkegRigging.Adapter.EventOrder
import SkegRigging.Adapter.Session
import SkegRigging.Library.Monitors

/-!
# The locks of a tenant

`Tenant` is shared by reference: its calls take `&self` and keep what they change behind two locks,
`inner` for the index and the sidecar and `subscribers` for the senders. `codeOf` writes every call
as the source does, one read or write at a time, with the lock it holds. The files of the directory
are written by calls that hold `inner`, so they stand behind it.

`Calls.step` is the machine that the other modules describe: a call is one of the functions of
`Tenant`, run at once, and an event is broadcast in a step of its own. Every interleaving of the
single reads and writes has the history of a run of that machine (`calls_linearize`), and the files
at any instant are those a sequential session leaves (`stopped_session`).
-/

set_option autoImplicit false

namespace SkegRigging

open DiskVamanaIndex Monitors

variable {F S : Type}

namespace Tenant

/-- The two locks of a tenant. -/
inductive Guard
  | inner
  | subscribers
  deriving DecidableEq, Repr

/-- What a lock guards. -/
def Guarded (E : DiskVamanaIndex F S) : Guard → Type
  | .inner => Dir E × Inner E
  | .subscribers => List Channel

/-- What the locks of an open tenant guard. -/
def guarded {E : DiskVamanaIndex F S} (files : Dir E) (t : Tenant E) : ∀ g, Guarded E g
  | .inner => (files, t.inner)
  | .subscribers => t.subscribers

/-- The files and the inner state. -/
def innerOf {E : DiskVamanaIndex F S} (m : ∀ g, Guarded E g) : Dir E × Inner E := m .inner

/-- The senders. -/
def sendersOf {E : DiskVamanaIndex F S} (m : ∀ g, Guarded E g) : List Channel := m .subscribers

/-- The tenant over what its locks guard; the other fields never change. -/
def withGuarded {E : DiskVamanaIndex F S} (t : Tenant E) (m : ∀ g, Guarded E g) : Tenant E :=
  { t with inner := (innerOf m).2, subscribers := sendersOf m }

/-- The calls that share a tenant, with what the environment decides during each. -/
inductive Call (E : DiskVamanaIndex F S)
  | insert (env : E.Env) (r : Record F)
  | delete (id : RecordId)
  | flush (o : WriteOutcome)
  | consolidate (env : E.Env)
  | queryFiltered (embedding : List F) (topK : UInt32) (filter : Filter)
  | iterVectors
  | recordCount
  | embeddingDim
  | subscribe (stream : Nat)

/-- The answers of the calls. -/
inductive Answer (F S : Type)
  | inserted (r : Except TenantError Unit)
  | deleted (r : Except TenantError Bool)
  | flushed (r : Except TenantError Unit)
  | consolidated (r : Except TenantError Unit)
  | hits (r : Except QueryError (List (Hit F S)))
  | vectors (l : List (RecordId × List F))
  | count (n : Nat)
  | dim (d : UInt32)
  | subscribed (stream : Nat)

variable {E : DiskVamanaIndex F S}

/-! ## The calls, one read or write at a time -/

/-- Code outside the sections of a tenant. -/
abbrev CallCode (E : DiskVamanaIndex F S) : Type := Code (Guarded E) (Answer F S)

/-- Code that holds a lock of a tenant. -/
abbrev CallSection (E : DiskVamanaIndex F S) (g : Guard) : Type :=
  Section (Guarded E) (Answer F S) g

section Steps

/-- Take the inner lock. -/
def lockInner (body : CallSection E .inner) : CallCode E := Code.acquire Guard.inner body

/-- A step that changes what the inner lock guards. -/
def change (f : Dir E × Inner E → Dir E × Inner E)
    (next : Dir E × Inner E → CallSection E .inner) : CallSection E .inner :=
  Section.act Guard.inner f next

/-- A step that only reads. -/
def read (next : Dir E × Inner E → CallSection E .inner) : CallSection E .inner := change id next

/-- A write to the records of the sidecar. -/
def setRecords (f : List RecordEntry → List RecordEntry) (s : Dir E × Inner E) : Dir E × Inner E :=
  (s.1, { s.2 with sidecar := { s.2.sidecar with records := f s.2.sidecar.records } })

/-- Drop the inner lock. -/
def dropInner (rest : CallCode E) : CallSection E .inner := Section.release Guard.inner rest

/-- Return; the lock goes with the scope. -/
def leave (a : Answer F S) : CallSection E .inner := dropInner (Code.ret a)

/-- Take the lock of the subscribers. -/
def lockSubscribers (body : CallSection E .subscribers) : CallCode E :=
  Code.acquire Guard.subscribers body

/-- A step on the subscribers. -/
def changeSubscribers (f : List Channel → List Channel)
    (next : List Channel → CallSection E .subscribers) : CallSection E .subscribers :=
  Section.act Guard.subscribers f next

/-- Drop the lock of the subscribers and return. -/
def leaveSubscribers (a : Answer F S) : CallSection E .subscribers :=
  Section.release Guard.subscribers (Code.ret a)

end Steps

section Emit

variable (e : Event)

/-- `retain` at position `kept`, behind the `kept` senders it has kept: a send that fails removes
the sender. -/
def retainAt (kept : Nat) (subs : List Channel) : List Channel :=
  match subs[kept]? with
  | none => subs
  | some c =>
    match c.send e with
    | some c => subs.set kept c
    | none => subs.eraseIdx kept

/-- The send at position `kept` succeeds. -/
def sendsAt (kept : Nat) (subs : List Channel) : Bool := ((subs[kept]?).bind (·.send e)).isSome

/-- The loop of `retain`, with `left` senders to visit. -/
def retainLoop (a : Answer F S) : (left kept : Nat) → CallSection E .subscribers
  | 0, _ => leaveSubscribers a
  | left + 1, kept =>
    changeSubscribers (retainAt e kept) fun subs =>
      retainLoop a left (if sendsAt e kept subs then kept + 1 else kept)

/-- `emit`, and the return that follows it. -/
def emitCode (a : Answer F S) : CallCode E :=
  lockSubscribers (changeSubscribers id fun subs => retainLoop e a subs.length 0)

end Emit

section Calls

variable (J : SerdeJson) (t : Tenant E)

/-- The sidecar part of `insert`: find the position of the id, write there or push. -/
def upsertCode (entry : RecordEntry) (rest : CallCode E) : CallSection E .inner :=
  read fun s =>
    match s.2.sidecar.records.findIdx? fun x => x.recordId == entry.recordId with
    | some pos => change (setRecords fun records => records.set pos entry) fun _ => dropInner rest
    | none => change (setRecords fun records => records ++ [entry]) fun _ => dropInner rest

/-- `insert`. The refusals come before the lock. -/
def insertCode (env : E.Env) (r : Record F) : CallCode E :=
  if t.readOnly then .ret (.inserted (.error readOnlyError))
  else if asU32 r.embedding.length ≠ t.embeddingDim then
    .ret (.inserted (.error (.dimMismatch t.embeddingDim (asU32 r.embedding.length))))
  else
    lockInner <| change
      (fun s =>
        match E.insert env s.1.engine s.2.index r.recordId.val r.embedding with
        | ((engine, index), _) => ({ s.1 with engine }, { s.2 with index }))
      fun s =>
        match (E.insert env s.1.engine s.2.index r.recordId.val r.embedding).2 with
        | .error e => leave (.inserted (.error (.io e)))
        | .ok () =>
          upsertCode r.entry
            (emitCode (.recordInserted r.recordId r.shareable) (.inserted (.ok ())))

/-- `delete`. -/
def deleteCode (id : RecordId) : CallCode E :=
  if t.readOnly then .ret (.deleted (.error readOnlyError))
  else
    lockInner <| read fun s =>
      let before := s.2.sidecar.records.length
      change (setRecords (Keyed.remove RecordEntry.recordId id.val)) fun _ => read fun s =>
        let removed := decide (s.2.sidecar.records.length ≠ before)
        dropInner
          (if removed then emitCode (.recordDeleted id) (.deleted (.ok removed))
          else .ret (.deleted (.ok removed)))

/-- `flush`. -/
def flushCode (o : WriteOutcome) : CallCode E :=
  if t.readOnly then .ret (.flushed (.ok ()))
  else
    lockInner <| change
      (fun s => ({ s.1 with metaJson := (s.2.sidecar.writeToPath J o s.1.metaJson).1 }, s.2))
      fun s => leave (.flushed (s.2.sidecar.writeToPath J o s.1.metaJson).2)

/-- `consolidate`. -/
def consolidateCode (env : E.Env) : CallCode E :=
  if t.readOnly then .ret (.consolidated (.ok ()))
  else
    lockInner <| change
      (fun s =>
        match E.consolidate env s.1.engine s.2.index with
        | ((engine, index), _) => ({ s.1 with engine }, { s.2 with index }))
      fun s =>
        match (E.consolidate env s.1.engine s.2.index).2 with
        | .error e => leave (.consolidated (.error (.io e)))
        | .ok () => leave (.consolidated (.ok ()))

/-- The loop of `query_filtered`: one step looks a candidate up, another reads its vector. -/
def collectCode (topK : Nat) (filter : Filter) :
    List (UInt64 × S) → List (Hit F S) → CallSection E .inner
  | [], out => leave (.hits (.ok out))
  | (id, sim) :: raw, out =>
    read fun s =>
      match s.2.sidecar.get ⟨id⟩ with
      | none => collectCode topK filter raw out
      | some e =>
        if filter (metaOf id e) then
          read fun s =>
            let out := out ++ [{ t with inner := s.2 }.hitOf id sim e]
            if out.length ≥ topK then leave (.hits (.ok out))
            else collectCode topK filter raw out
        else collectCode topK filter raw out

/-- `query_filtered`. -/
def queryCode (embedding : List F) (topK : UInt32) (filter : Filter) : CallCode E :=
  if asU32 embedding.length ≠ t.embeddingDim then
    .ret (.hits (.error (.embeddingDimMismatch t.embeddingDim (asU32 embedding.length))))
  else
    lockInner <| read fun s =>
      match E.search s.2.index embedding (oversample topK) with
      | .error e => leave (.hits (.error (.io e)))
      | .ok raw => collectCode t topK.toNat filter raw []

/-- The loop of `iter_vectors`. -/
def iterCode : List RecordEntry → List (RecordId × List F) → CallSection E .inner
  | [], out => leave (.vectors out)
  | rec_ :: records, out =>
    read fun s =>
      match E.get s.2.index rec_.recordId with
      | .ok (some v) => iterCode records (out ++ [(⟨rec_.recordId⟩, v)])
      | .ok none => iterCode records out
      | .error _ => iterCode records out

/-- The code of a call. -/
def codeOf : Call E → CallCode E
  | .insert env r => insertCode t env r
  | .delete id => deleteCode t id
  | .flush o => flushCode J t o
  | .consolidate env => consolidateCode t env
  | .queryFiltered embedding topK filter => queryCode t embedding topK filter
  | .iterVectors => lockInner <| read fun s => iterCode s.2.sidecar.records []
  | .recordCount => lockInner <| read fun s => leave (.count s.2.sidecar.records.length)
  | .embeddingDim => .ret (.dim t.embeddingDim)
  | .subscribe stream =>
    lockSubscribers <| changeSubscribers
      (fun subs => subs ++ [{ stream, queue := [], live := true }])
      fun _ => leaveSubscribers (.subscribed stream)

end Calls

/-! ## The machine of whole calls -/

/-- Where a thread is in its call: before its part under the inner lock, before its broadcast, or
before its return. -/
inductive Phase (E : DiskVamanaIndex F S)
  | idle
  | called (c : Call E)
  | emitting (e : Event) (a : Answer F S)
  | returning (a : Answer F S)

/-- A tenant with the calls in flight, each a sequence of functions of `Tenant`. -/
structure Calls (E : DiskVamanaIndex F S) (T : Type) where
  files : Dir E
  tenant : Tenant E
  threads : T → Phase E
  history : List (Visible T (Call E) (Answer F S))

/-- A call up to its broadcast: the files and the tenant it leaves, the event to broadcast, if there
is one, and the answer. -/
def perform (J : SerdeJson) (files : Dir E) (t : Tenant E) :
    Call E → Dir E × Tenant E × Option Event × Answer F S
  | .insert env r =>
    match t.insertState env files r with
    | (files, t, .ok ()) =>
      (files, t, some (.recordInserted r.recordId r.shareable), .inserted (.ok ()))
    | (files, t, .error e) => (files, t, none, .inserted (.error e))
  | .delete id =>
    match t.deleteState id with
    | (t, .ok true) => (files, t, some (.recordDeleted id), .deleted (.ok true))
    | (t, r) => (files, t, none, .deleted r)
  | .flush o => ((t.flush J o files).1, t, none, .flushed (t.flush J o files).2)
  | .consolidate env =>
    match t.consolidate env files with
    | (files, t, r) => (files, t, none, .consolidated r)
  | .queryFiltered embedding topK filter =>
    (files, t, none, .hits (t.queryFiltered embedding topK filter))
  | .iterVectors => (files, t, none, .vectors t.iterVectors)
  | .recordCount => (files, t, none, .count t.recordCount)
  | .embeddingDim => (files, t, none, .dim t.embeddingDim)
  | .subscribe stream => (files, t.subscribe stream, none, .subscribed stream)

/-- What a thread does after its part under the inner lock. -/
def Phase.after : Option Event → Answer F S → Phase E
  | some e, a => .emitting e a
  | none, a => .returning a

namespace Calls

variable {T : Type}

/-- An open tenant before any call. -/
def start (files : Dir E) (t : Tenant E) : Calls E T where
  files := files
  tenant := t
  threads _ := .idle
  history := []

variable [DecidableEq T]

def step (J : SerdeJson) (s : Calls E T) : Act T (Call E) → Calls E T
  | .invoke u c =>
    match s.threads u with
    | .idle =>
      { s with
        threads := Function.update s.threads u (.called c)
        history := s.history ++ [.invoked u c] }
    | _ => s
  | .run u =>
    match s.threads u with
    | .idle => s
    | .called c =>
      match perform J s.files s.tenant c with
      | (files, tenant, event, a) =>
        { s with
          files
          tenant
          threads := Function.update s.threads u (Phase.after event a) }
    | .emitting e a =>
      { s with
        tenant := s.tenant.emit e
        threads := Function.update s.threads u (.returning a) }
    | .returning a =>
      { s with
        threads := Function.update s.threads u .idle
        history := s.history ++ [.answered u a] }

/-- A run of whole calls on an open tenant. -/
def runs (J : SerdeJson) (t : Tenant E) (files : Dir E) (acts : List (Act T (Call E))) :
    Calls E T :=
  Runs.run (step J) (start files t) acts

end Calls

/-- A run of the single reads and writes of calls on an open tenant. -/
def interleaved {T : Type} [DecidableEq T] (J : SerdeJson) (t : Tenant E) (files : Dir E)
    (acts : List (Act T (Call E))) : State T (Call E) (Guarded E) (Answer F S) :=
  Runs.run (Monitors.step (codeOf J t)) (Monitors.start (guarded files t)) acts

/-! ## The sections compute the functions -/

section Sections

/-- The code after the part under the inner lock. -/
def codeAfter : Option Event → Answer F S → CallCode E
  | some e, a => emitCode e a
  | none, a => .ret a

@[simp] theorem finish_change (f : Dir E × Inner E → Dir E × Inner E)
    (next : Dir E × Inner E → CallSection E .inner) (x : Dir E × Inner E) :
    (change f next).finish x = (next x).finish (f x) := rfl

@[simp] theorem finish_read (next : Dir E × Inner E → CallSection E .inner) (x : Dir E × Inner E) :
    (read next).finish x = (next x).finish x := rfl

@[simp] theorem finish_dropInner (rest : CallCode E) (x : Dir E × Inner E) :
    (dropInner rest).finish x = (x, rest) := rfl

@[simp] theorem finish_leave (a : Answer F S) (x : Dir E × Inner E) :
    (leave a : CallSection E .inner).finish x = (x, .ret a) := rfl

@[simp] theorem finish_changeSubscribers (f : List Channel → List Channel)
    (next : List Channel → CallSection E .subscribers) (x : List Channel) :
    (changeSubscribers f next).finish x = (next x).finish (f x) := rfl

@[simp] theorem finish_leaveSubscribers (a : Answer F S) (x : List Channel) :
    (leaveSubscribers a : CallSection E .subscribers).finish x = (x, .ret a) := rfl

/-- The loop of `retain` from behind `pre` on: it leaves what a broadcast to the rest leaves. -/
theorem finish_retainLoop (e : Event) (a : Answer F S) (subs pre : List Channel) :
    (retainLoop e a subs.length pre.length : CallSection E .subscribers).finish (pre ++ subs) =
      (pre ++ broadcast e subs, .ret a) := by
  induction subs generalizing pre with
  | nil =>
    rw [List.append_nil]
    exact Prod.ext (List.append_nil pre).symm rfl
  | cons c subs ih =>
    have hget : (pre ++ c :: subs)[pre.length]? = some c := by simp
    rw [List.length_cons, retainLoop, finish_changeSubscribers, retainAt, sendsAt, hget]
    cases hsend : c.send e with
    | none =>
      have hdrop : broadcast e (c :: subs) = broadcast e subs := by simp [broadcast, hsend]
      simp only [Option.bind_some, hsend, Option.isSome_none, Bool.false_eq_true, if_false, hdrop]
      have herase : (pre ++ c :: subs).eraseIdx pre.length = pre ++ subs := by
        rw [List.eraseIdx_append_of_length_le (Nat.le_refl _), Nat.sub_self]
        rfl
      rw [herase]
      exact ih pre
    | some d =>
      have hkeep : broadcast e (c :: subs) = d :: broadcast e subs := by simp [broadcast, hsend]
      simp only [Option.bind_some, hsend, Option.isSome_some, if_true, hkeep]
      -- the kept sender joins the senders in front of the loop
      have hset : (pre ++ c :: subs).set pre.length d = (pre ++ [d]) ++ subs := by simp
      have hlen : pre.length + 1 = (pre ++ [d]).length := by simp
      rw [hset, hlen, ih (pre ++ [d]), List.append_assoc]
      rfl

theorem finish_upsertCode (entry : RecordEntry) (rest : CallCode E) (x : Dir E × Inner E) :
    (upsertCode entry rest).finish x =
      (setRecords (Keyed.upsert RecordEntry.recordId entry) x, rest) := by
  rw [upsertCode, finish_read]
  have hupsert := Keyed.upsert_eq_findIdx? RecordEntry.recordId entry x.2.sidecar.records
  cases hpos : x.2.sidecar.records.findIdx? fun y => y.recordId == entry.recordId with
  | none =>
    rw [hpos] at hupsert
    simp only [finish_change, finish_dropInner, setRecords, hupsert]
    rfl
  | some pos =>
    rw [hpos] at hupsert
    simp only [finish_change, finish_dropInner, setRecords, hupsert]
    rfl

/-- The loop of a query reads the inner state of the tenant, and nothing else of it. -/
theorem collectHits_congr {t t' : Tenant E} (h : t.inner = t'.inner) (topK : Nat) (filter : Filter)
    (raw : List (UInt64 × S)) (out : List (Hit F S)) :
    collectHits t topK filter raw out = collectHits t' topK filter raw out := by
  have hhit : ∀ id sim e, t.hitOf id sim e = t'.hitOf id sim e := by
    intro id sim e
    rw [hitOf, hitOf, h]
  induction raw generalizing out with
  | nil => rfl
  | cons c raw ih =>
    obtain ⟨id, sim⟩ := c
    rw [collectHits, collectHits, h]
    cases t'.inner.sidecar.get ⟨id⟩ with
    | none => exact ih out
    | some e =>
      dsimp only
      rw [hhit, ih out, ih (out ++ [t'.hitOf id sim e])]

theorem finish_collectCode (t : Tenant E) (topK : Nat) (filter : Filter)
    (raw : List (UInt64 × S)) (out : List (Hit F S)) (x : Dir E × Inner E) :
    (collectCode t topK filter raw out).finish x =
      (x, .ret (.hits (.ok (collectHits { t with inner := x.2 } topK filter raw out)))) := by
  induction raw generalizing out with
  | nil => rfl
  | cons c raw ih =>
    obtain ⟨id, sim⟩ := c
    rw [collectCode, finish_read, collectHits]
    cases x.2.sidecar.get ⟨id⟩ with
    | none => exact ih out
    | some e =>
      dsimp only
      split
      · rw [finish_read]
        split
        · rfl
        · exact ih _
      · exact ih out

theorem finish_iterCode (records : List RecordEntry) (out : List (RecordId × List F))
    (x : Dir E × Inner E) :
    (iterCode records out).finish x =
      (x, .ret (.vectors (out ++ records.filterMap fun rec_ =>
        match E.get x.2.index rec_.recordId with
        | .ok (some v) => some (⟨rec_.recordId⟩, v)
        | .ok none => none
        | .error _ => none))) := by
  induction records generalizing out with
  | nil =>
    rw [List.filterMap_nil, List.append_nil]
    rfl
  | cons rec_ records ih =>
    rw [iterCode, finish_read, List.filterMap_cons]
    rcases E.get x.2.index rec_.recordId with e | v
    · exact ih out
    · cases v with
      | none => exact ih out
      | some v =>
        dsimp only
        rw [ih, List.append_assoc]
        rfl

/-- The code of a call from the values `m` does what `perform` does: it returns without a lock, or
it has one section, and the code after it makes the broadcast that `perform` asks for. -/
inductive Performs (J : SerdeJson) (t : Tenant E) (m : ∀ g, Guarded E g) (c : Call E) :
    CallCode E → Prop
  | refused {a : Answer F S}
      (h : perform J (innerOf m).1 (t.withGuarded m) c =
        ((innerOf m).1, t.withGuarded m, none, a)) :
      Performs J t m c (.ret a)
  | inner (event : Option Event) (a : Answer F S) {body : CallSection E .inner}
      {x : Dir E × Inner E} (hbody : body.finish (innerOf m) = (x, codeAfter event a))
      (h : perform J (innerOf m).1 (t.withGuarded m) c =
        (x.1, { t.withGuarded m with inner := x.2 }, event, a)) :
      Performs J t m c (lockInner body)
  | subscribers {body : CallSection E .subscribers} {x : List Channel} {a : Answer F S}
      (hbody : body.finish (sendersOf m) = (x, .ret a))
      (h : perform J (innerOf m).1 (t.withGuarded m) c =
        ((innerOf m).1, { t.withGuarded m with subscribers := x }, none, a)) :
      Performs J t m c (lockSubscribers body)

variable (J : SerdeJson) (t : Tenant E) (m : ∀ g, Guarded E g)

theorem insertCode_performs (env : E.Env) (r : Record F) :
    Performs J t m (.insert env r) (insertCode t env r) := by
  rw [insertCode]
  by_cases hro : t.readOnly = true
  · rw [if_pos hro]
    apply Performs.refused
    have hins : (t.withGuarded m).insertState env (innerOf m).1 r =
        ((innerOf m).1, t.withGuarded m, .error readOnlyError) := if_pos hro
    simp only [perform, hins]
  rw [if_neg hro]
  have hro' : ¬ (t.withGuarded m).readOnly = true := hro
  by_cases hdim : asU32 r.embedding.length ≠ t.embeddingDim
  · rw [if_pos hdim]
    apply Performs.refused
    have hins : (t.withGuarded m).insertState env (innerOf m).1 r =
        ((innerOf m).1, t.withGuarded m,
          .error (.dimMismatch t.embeddingDim (asU32 r.embedding.length))) := by
      rw [insertState, if_neg hro']
      exact if_pos hdim
    simp only [perform, hins]
  rw [if_neg hdim]
  have hdim' : ¬ asU32 r.embedding.length ≠ (t.withGuarded m).embeddingDim := hdim
  -- the engine's result decides whether the sidecar is written
  generalize hres : E.insert env (innerOf m).1.engine (innerOf m).2.index r.recordId.val
    r.embedding = res
  have hres' : E.insert env (innerOf m).1.engine (t.withGuarded m).inner.index r.recordId.val
    r.embedding = res := hres
  obtain ⟨⟨engine, index⟩, e | u⟩ := res
  · apply Performs.inner none (.inserted (.error (.io e)))
    · simp only [finish_change, hres, finish_leave]
      rfl
    · simp only [perform, insertState, if_neg hro', if_neg hdim', hres']
      rfl
  · apply Performs.inner (some (.recordInserted r.recordId r.shareable)) (.inserted (.ok ()))
    · simp only [finish_change, hres, finish_upsertCode]
      rfl
    · simp only [perform, insertState, if_neg hro', if_neg hdim', hres']
      rfl

theorem deleteCode_performs (id : RecordId) :
    Performs J t m (.delete id) (deleteCode t id) := by
  rw [deleteCode]
  by_cases hro : t.readOnly = true
  · rw [if_pos hro]
    apply Performs.refused
    have hdel : (t.withGuarded m).deleteState id = (t.withGuarded m, .error readOnlyError) :=
      if_pos hro
    simp only [perform, hdel]
  rw [if_neg hro]
  have hro' : ¬ (t.withGuarded m).readOnly = true := hro
  cases hremoved : decide ((Keyed.remove RecordEntry.recordId id.val
      (innerOf m).2.sidecar.records).length ≠ (innerOf m).2.sidecar.records.length) with
  | false =>
    apply Performs.inner none (.deleted (.ok false))
    · simp only [finish_read, finish_change, finish_dropInner, setRecords, hremoved]
      rfl
    · have hremoved' : decide ((Keyed.remove RecordEntry.recordId id.val
          (t.withGuarded m).inner.sidecar.records).length ≠
          (t.withGuarded m).inner.sidecar.records.length) = false := hremoved
      simp only [perform, deleteState, if_neg hro', hremoved']
      rfl
  | true =>
    apply Performs.inner (some (.recordDeleted id)) (.deleted (.ok true))
    · simp only [finish_read, finish_change, finish_dropInner, setRecords, hremoved]
      rfl
    · have hremoved' : decide ((Keyed.remove RecordEntry.recordId id.val
          (t.withGuarded m).inner.sidecar.records).length ≠
          (t.withGuarded m).inner.sidecar.records.length) = true := hremoved
      simp only [perform, deleteState, if_neg hro', hremoved']
      rfl

theorem flushCode_performs (o : WriteOutcome) :
    Performs J t m (.flush o) (flushCode J t o) := by
  rw [flushCode]
  by_cases hro : t.readOnly = true
  · rw [if_pos hro]
    apply Performs.refused
    have hflush : (t.withGuarded m).flush J o (innerOf m).1 = ((innerOf m).1, .ok ()) :=
      if_pos hro
    simp only [perform, hflush]
  · rw [if_neg hro]
    have hflush : (t.withGuarded m).flush J o (innerOf m).1 =
        ({ (innerOf m).1 with
            metaJson := ((innerOf m).2.sidecar.writeToPath J o (innerOf m).1.metaJson).1 },
          ((innerOf m).2.sidecar.writeToPath J o (innerOf m).1.metaJson).2) := if_neg hro
    apply Performs.inner none
      (.flushed ((innerOf m).2.sidecar.writeToPath J o (innerOf m).1.metaJson).2)
    · rw [finish_change, finish_leave]
      rfl
    · simp only [perform, hflush]
      rfl

theorem consolidateCode_performs (env : E.Env) :
    Performs J t m (.consolidate env) (consolidateCode t env) := by
  rw [consolidateCode]
  by_cases hro : t.readOnly = true
  · rw [if_pos hro]
    apply Performs.refused
    have hcon : (t.withGuarded m).consolidate env (innerOf m).1 =
        ((innerOf m).1, t.withGuarded m, .ok ()) := if_pos hro
    simp only [perform, hcon]
  rw [if_neg hro]
  have hro' : ¬ (t.withGuarded m).readOnly = true := hro
  generalize hres : E.consolidate env (innerOf m).1.engine (innerOf m).2.index = res
  have hres' : E.consolidate env (innerOf m).1.engine (t.withGuarded m).inner.index = res := hres
  obtain ⟨⟨engine, index⟩, e | u⟩ := res
  · apply Performs.inner none (.consolidated (.error (.io e)))
    · simp only [finish_change, hres, finish_leave]
      rfl
    · simp only [perform, Tenant.consolidate, if_neg hro', hres']
      rfl
  · apply Performs.inner none (.consolidated (.ok ()))
    · simp only [finish_change, hres, finish_leave]
      rfl
    · simp only [perform, Tenant.consolidate, if_neg hro', hres']
      rfl

theorem queryCode_performs (embedding : List F) (topK : UInt32) (filter : Filter) :
    Performs J t m (.queryFiltered embedding topK filter) (queryCode t embedding topK filter) := by
  rw [queryCode]
  by_cases hdim : asU32 embedding.length ≠ t.embeddingDim
  · rw [if_pos hdim]
    apply Performs.refused
    have hq : (t.withGuarded m).queryFiltered embedding topK filter =
        .error (.embeddingDimMismatch t.embeddingDim (asU32 embedding.length)) := if_pos hdim
    simp only [perform, hq]
  rw [if_neg hdim]
  have hdim' : ¬ asU32 embedding.length ≠ (t.withGuarded m).embeddingDim := hdim
  generalize hres : E.search (innerOf m).2.index embedding (oversample topK) = res
  have hres' : E.search (t.withGuarded m).inner.index embedding (oversample topK) = res := hres
  cases res with
  | error e =>
    apply Performs.inner none (.hits (.error (.io e)))
    · simp only [finish_read, hres, finish_leave]
      rfl
    · simp only [perform, Tenant.queryFiltered, if_neg hdim', hres']
      rfl
  | ok raw =>
    apply Performs.inner none
      (.hits (.ok (collectHits (t.withGuarded m) topK.toNat filter raw [])))
    · simp only [finish_read, hres, finish_collectCode]
      have hinner : { t with inner := (innerOf m).2 }.inner = (t.withGuarded m).inner := rfl
      rw [collectHits_congr hinner]
      rfl
    · simp only [perform, Tenant.queryFiltered, if_neg hdim', hres']
      rfl

theorem iterCode_performs :
    Performs J t m .iterVectors (lockInner (read fun s => iterCode s.2.sidecar.records [])) := by
  apply Performs.inner none (.vectors (t.withGuarded m).iterVectors)
  · rw [finish_read, finish_iterCode, List.nil_append]
    rfl
  · rfl

theorem countCode_performs :
    Performs J t m .recordCount
      (lockInner (read fun s => leave (.count s.2.sidecar.records.length))) := by
  apply Performs.inner none (.count (t.withGuarded m).recordCount)
  · rw [finish_read, finish_leave]
    rfl
  · rfl

theorem subscribeCode_performs (stream : Nat) :
    Performs J t m (.subscribe stream) (codeOf J t (.subscribe stream)) := by
  apply Performs.subscribers
  · rw [finish_changeSubscribers, finish_leaveSubscribers]
  · rfl

/-- The code of every call does what the functions of `Tenant` do. -/
theorem codeOf_performs (c : Call E) : Performs J t m c (codeOf J t c) := by
  cases c with
  | insert env r => exact insertCode_performs J t m env r
  | delete id => exact deleteCode_performs J t m id
  | flush o => exact flushCode_performs J t m o
  | consolidate env => exact consolidateCode_performs J t m env
  | queryFiltered embedding topK filter => exact queryCode_performs J t m embedding topK filter
  | iterVectors => exact iterCode_performs J t m
  | recordCount => exact countCode_performs J t m
  | embeddingDim => exact Performs.refused rfl
  | subscribe stream => exact subscribeCode_performs J t m stream

end Sections

/-! ## Interleavings of the single steps are interleavings of the calls -/

section Linearization

variable {T : Type} (J : SerdeJson) (t : Tenant E)

@[simp] theorem innerOf_update_inner (m : ∀ g, Guarded E g) (x : Dir E × Inner E) :
    innerOf (Function.update m .inner x) = x := Function.update_self _ _ _

@[simp] theorem sendersOf_update_inner (m : ∀ g, Guarded E g) (x : Dir E × Inner E) :
    sendersOf (Function.update m .inner x) = sendersOf m := Function.update_of_ne (by simp) _ _

@[simp] theorem innerOf_update_subscribers (m : ∀ g, Guarded E g) (x : List Channel) :
    innerOf (Function.update m .subscribers x) = innerOf m := Function.update_of_ne (by simp) _ _

@[simp] theorem sendersOf_update_subscribers (m : ∀ g, Guarded E g) (x : List Channel) :
    sendersOf (Function.update m .subscribers x) = x := Function.update_self _ _ _

/-- The code a thread has left in each phase of its call. -/
inductive Matches : Option (CallCode E) → Phase E → Prop
  | idle : Matches none .idle
  | called (c : Call E) : Matches (some (codeOf J t c)) (.called c)
  | emitting (e : Event) (a : Answer F S) : Matches (some (emitCode e a)) (.emitting e a)
  | returning (a : Answer F S) : Matches (some (.ret a)) (.returning a)

theorem matches_after (event : Option Event) (a : Answer F S) :
    Matches J t (some (codeAfter event a)) (Phase.after event a) := by
  cases event with
  | none => exact Matches.returning a
  | some e => exact Matches.emitting e a

/-- The machine of whole calls stands for the one whose sections are atomic. -/
structure Stands (s : Atomic T (Call E) (Guarded E) (Answer F S)) (a : Calls E T) : Prop where
  files : a.files = (innerOf s.shared).1
  tenant : a.tenant = t.withGuarded s.shared
  threads : ∀ u, Matches J t (s.threads u) (a.threads u)
  history : a.history = s.history

variable {J t}

theorem start_stands (files : Dir E) :
    Stands J t (atomicStart (guarded files t) : Atomic T (Call E) (Guarded E) (Answer F S))
      (Calls.start files t) where
  files := rfl
  tenant := rfl
  threads _ := Matches.idle
  history := rfl

/-- While the inner lock is free, the machine of whole calls has the values behind it. -/
theorem Stands.innerOf_eq {m : State T (Call E) (Guarded E) (Answer F S)}
    {s : Atomic T (Call E) (Guarded E) (Answer F S)} {a : Calls E T} (hs : Stands J t s a)
    (href : Refines m s) (hfree : m.owner .inner = none) :
    (a.files, a.tenant.inner) = innerOf m.shared := by
  rw [hs.files, hs.tenant]
  exact href.free .inner hfree

/-- While the lock of the subscribers is free, the machine of whole calls has the senders. -/
theorem Stands.sendersOf_eq {m : State T (Call E) (Guarded E) (Answer F S)}
    {s : Atomic T (Call E) (Guarded E) (Answer F S)} {a : Calls E T} (hs : Stands J t s a)
    (href : Refines m s) (hfree : m.owner .subscribers = none) :
    a.tenant.subscribers = sendersOf m.shared := by
  rw [hs.tenant]
  exact href.free .subscribers hfree

variable [DecidableEq T]

theorem matches_update {code : T → Option (CallCode E)} {phase : T → Phase E}
    (h : ∀ u, Matches J t (code u) (phase u)) {u : T} {c : Option (CallCode E)} {p : Phase E}
    (hu : Matches J t c p) (v : T) :
    Matches J t (Function.update code u c v) (Function.update phase u p v) := by
  by_cases hv : v = u
  · subst hv
    rw [Function.update_self, Function.update_self]
    exact hu
  · rw [Function.update_of_ne hv, Function.update_of_ne hv]
    exact h v

theorem Stands.invoke {s : Atomic T (Call E) (Guarded E) (Answer F S)} {a : Calls E T}
    (hs : Stands J t s a) (u : T) (c : Call E) :
    Stands J t (atomicStep (codeOf J t) s (.invoke u c)) (Calls.step J a (.invoke u c)) := by
  have hu := hs.threads u
  generalize hcode : s.threads u = code at hu
  generalize hphase : a.threads u = phase at hu
  cases hu with
  | idle =>
    simp only [atomicStep, hcode, Calls.step, hphase]
    exact ⟨hs.files, hs.tenant, matches_update hs.threads (Matches.called c), by rw [hs.history]⟩
  | called c' =>
    simp only [atomicStep, hcode, Calls.step, hphase]
    exact hs
  | emitting e r =>
    simp only [atomicStep, hcode, Calls.step, hphase]
    exact hs
  | returning r =>
    simp only [atomicStep, hcode, Calls.step, hphase]
    exact hs

/-- A step of a thread that has not yet been under the inner lock. -/
theorem Stands.runCalled {s : Atomic T (Call E) (Guarded E) (Answer F S)} {a : Calls E T}
    (hs : Stands J t s a) {u : T} {c : Call E} (hcode : s.threads u = some (codeOf J t c))
    (hphase : a.threads u = .called c) :
    ∃ acts, Stands J t (atomicStep (codeOf J t) s (.run u)) (Runs.run (Calls.step J) a acts) := by
  have hperf := codeOf_performs J t s.shared c
  generalize codeOf J t c = code at hcode hperf
  cases hperf with
  | @refused r h =>
    -- without a lock the call is already at its return: one step here, two in the other machine
    refine ⟨[.run u, .run u], ?_⟩
    rw [← hs.files, ← hs.tenant] at h
    simp only [atomicStep, hcode, Runs.run_cons, Runs.run_nil, Calls.step, hphase, h,
      Function.update_self, Phase.after, Function.update_idem]
    exact ⟨hs.files, hs.tenant, matches_update hs.threads Matches.idle, by rw [hs.history]⟩
  | @inner event r body x hbody h =>
    refine ⟨[.run u], ?_⟩
    rw [← hs.files, ← hs.tenant] at h
    have hfinish : body.finish (s.shared .inner) = (x, codeAfter event r) := hbody
    simp only [lockInner] at hcode
    simp only [atomicStep, hcode, hfinish, Runs.run_cons, Runs.run_nil, Calls.step, hphase, h]
    refine ⟨?_, ?_, matches_update hs.threads (matches_after J t event r), hs.history⟩
    · rw [innerOf_update_inner]
    · rw [hs.tenant, withGuarded, withGuarded, innerOf_update_inner, sendersOf_update_inner]
  | @subscribers body x r hbody h =>
    refine ⟨[.run u], ?_⟩
    rw [← hs.files, ← hs.tenant] at h
    have hfinish : body.finish (s.shared .subscribers) = (x, .ret r) := hbody
    simp only [lockSubscribers] at hcode
    simp only [atomicStep, hcode, hfinish, Runs.run_cons, Runs.run_nil, Calls.step, hphase, h]
    refine ⟨?_, ?_, matches_update hs.threads (Matches.returning r), hs.history⟩
    · rw [innerOf_update_subscribers, hs.files]
    · rw [hs.tenant, withGuarded, withGuarded, innerOf_update_subscribers,
        sendersOf_update_subscribers]

/-- A step of a thread that has an event to broadcast. -/
theorem Stands.runEmitting {s : Atomic T (Call E) (Guarded E) (Answer F S)} {a : Calls E T}
    (hs : Stands J t s a) {u : T} {e : Event} {r : Answer F S}
    (hcode : s.threads u = some (emitCode e r)) (hphase : a.threads u = .emitting e r) :
    Stands J t (atomicStep (codeOf J t) s (.run u)) (Calls.step J a (.run u)) := by
  have hloop := finish_retainLoop (E := E) e r (sendersOf s.shared) []
  simp only [emitCode, lockSubscribers] at hcode
  have hfinish : (changeSubscribers id fun subs => retainLoop e r subs.length 0 :
      CallSection E .subscribers).finish (s.shared .subscribers) =
        (broadcast e (sendersOf s.shared), .ret r) := hloop
  simp only [atomicStep, hcode, hfinish, Calls.step, hphase]
  refine ⟨?_, ?_, matches_update hs.threads (Matches.returning r), hs.history⟩
  · rw [innerOf_update_subscribers, hs.files]
  · rw [hs.tenant, withGuarded, withGuarded, innerOf_update_subscribers,
      sendersOf_update_subscribers]
    rfl

/-- Every step of the machine with atomic sections is a few steps of the machine of whole calls. -/
theorem Stands.step {s : Atomic T (Call E) (Guarded E) (Answer F S)} {a : Calls E T}
    (hs : Stands J t s a) (act : Act T (Call E)) :
    ∃ acts, Stands J t (atomicStep (codeOf J t) s act) (Runs.run (Calls.step J) a acts) := by
  cases act with
  | invoke u c => exact ⟨[.invoke u c], hs.invoke u c⟩
  | run u =>
    have hu := hs.threads u
    generalize hcode : s.threads u = code at hu
    generalize hphase : a.threads u = phase at hu
    cases hu with
    | idle =>
      refine ⟨[], ?_⟩
      simp only [atomicStep, hcode]
      exact hs
    | called c => exact hs.runCalled hcode hphase
    | emitting e r => exact ⟨[.run u], hs.runEmitting hcode hphase⟩
    | returning r =>
      refine ⟨[.run u], ?_⟩
      simp only [atomicStep, hcode, Runs.run_cons, Runs.run_nil, Calls.step, hphase]
      exact ⟨hs.files, hs.tenant, matches_update hs.threads Matches.idle, by rw [hs.history]⟩

theorem run_stands {s : Atomic T (Call E) (Guarded E) (Answer F S)} {a : Calls E T}
    (hs : Stands J t s a) (acts : List (Act T (Call E))) :
    ∃ acts', Stands J t (Runs.run (atomicStep (codeOf J t)) s acts)
      (Runs.run (Calls.step J) a acts') := by
  induction acts generalizing s a with
  | nil => exact ⟨[], hs⟩
  | cons act acts ih =>
    obtain ⟨one, hone⟩ := hs.step act
    obtain ⟨rest, hrest⟩ := ih hone
    refine ⟨one ++ rest, ?_⟩
    rw [Runs.run_cons, Runs.run_append]
    exact hrest

/-- Some run of whole calls stands for any interleaving of the single reads and writes. -/
theorem interleaved_stands (J : SerdeJson) (t : Tenant E) (files : Dir E)
    (acts : List (Act T (Call E))) :
    ∃ s acts', Refines (interleaved J t files acts) s ∧
      Stands J t s (Calls.runs J t files acts') := by
  obtain ⟨mid, -, href⟩ := Monitors.run_refines (codeOf J t) (guarded files t) acts
  obtain ⟨acts', hstands⟩ := run_stands (start_stands (T := T) (J := J) (t := t) files) mid
  exact ⟨_, acts', href, hstands⟩

/-- Take any interleaving of the single reads and writes of any calls on a tenant. Some interleaving
of the whole calls has the same invocations and answers in the same order, and wherever the first
run leaves a lock free, both runs have the same values behind it. -/
theorem calls_linearize (J : SerdeJson) (t : Tenant E) (files : Dir E)
    (acts : List (Act T (Call E))) :
    ∃ acts', (Calls.runs J t files acts').history = (interleaved J t files acts).history ∧
      ((interleaved J t files acts).owner .inner = none →
        ((Calls.runs J t files acts').files, (Calls.runs J t files acts').tenant.inner) =
          innerOf (interleaved J t files acts).shared) ∧
      ((interleaved J t files acts).owner .subscribers = none →
        (Calls.runs J t files acts').tenant.subscribers =
          sendersOf (interleaved J t files acts).shared) := by
  obtain ⟨s, acts', href, hstands⟩ := interleaved_stands J t files acts
  refine ⟨acts', hstands.history.trans href.history, ?_, ?_⟩
  · exact hstands.innerOf_eq href
  · exact hstands.sendersOf_eq href

end Linearization

end Tenant

end SkegRigging
