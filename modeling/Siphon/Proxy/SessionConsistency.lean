import Siphon.Proxy.SessionIndex

/-!
# Consistency of the session store

The store is consistent if the client keys listed under a server key are those that lead to a
session of it, each once, and the dialog-key entries lead to sessions that were inserted and not yet
removed.
-/

namespace Siphon.Proxy

open ProxySessionStore

open Siphon.Transaction (TransactionKey Instant Duration)

/-! ### Sessions that are there -/

/-- A store, and the sessions that were inserted and not yet removed. -/
structure Tracked where
  store : ProxySessionStore
  live : List SessionRef

namespace Tracked

/-- The sessions left when those of some server keys are removed. -/
def without (t : Tracked) (serverKeys : List TransactionKey) : List SessionRef :=
  t.live.filter fun ref => (t.store.serverKey? ref).all fun key => !serverKeys.contains key

theorem mem_without {t : Tracked} {serverKeys : List TransactionKey} {ref : SessionRef} :
  ref ∈ t.without serverKeys
    ↔ ref ∈ t.live ∧ ∀ key, t.store.serverKey? ref = some key → key ∉ serverKeys
  := by
  simp [without, Option.all_eq_true]

/-- The sessions inserted and not yet removed after a call.  A session is removed with its server
key, by name or by a sweep; one that has lost its client keys is still there for its ACK. -/
def liveAfter (t : Tracked) : StoreOp → List SessionRef
  | .insert _ | .insertForFork _ => t.live ++ [t.store.sessions.length]
  | .removeByServerKey serverKey => t.without [serverKey]
  | .sweep now ttl _ pending => t.without (t.store.staleServerKeys now ttl pending)
  | _ => t.live

def start : Tracked :=
  ⟨new, []⟩

/-- The indexes are consistent: a client key is listed under a server key exactly when it leads to
a session of that server key, no client key is listed twice, and a dialog-key entry leads to a
session that was inserted and not yet removed. -/
structure Consistent (t : Tracked) : Prop where
  inverts : Inverts t.store.serverKeyOf t.store.clientKeysOf
  dialogs : ∀ dialogKey ref, t.store.byDialogKey.get? dialogKey = some ref → ref ∈ t.live

theorem consistent_start : start.Consistent := by
  constructor
  · constructor
    · intro serverKey clientKey
      simp [start, new, clientKeysOf,
        serverKeyOf]
    · intro serverKey
      simp [start, new, clientKeysOf]
  · intro dialogKey ref hentry
    cases hentry

variable [StdText]

def machine : Machine Tracked StoreOp Unit where
  step t op := (⟨t.store.step op, t.liveAfter op⟩, [])

/-- Whether a call leaves no dialog-key entry to a session it removes, and makes none to a session
that was removed before.  What is removed under a server key takes along the entry of the session
its first client key leads to, and a sweep the aged-out entries. -/
def DialogsFit (t : Tracked) : StoreOp → Prop
  | .removeByServerKey serverKey =>
    ∀ dialogKey ref, t.store.byDialogKey.get? dialogKey = some ref →
      t.store.serverKey? ref = some serverKey → t.store.getByServerKey serverKey = some ref
  | .keepDialogForLateAnswer _ ref =>
    ∀ dialogKey, t.store.dialogKey? ref = some dialogKey →
      t.store.byDialogKey.get? dialogKey = none → ref ∈ t.live
  | .sweep now ttl ackGrace pending =>
    ∀ dialogKey ref session, t.store.byDialogKey.get? dialogKey = some ref →
      t.store.session? ref = some session →
      session.serverKey ∈ t.store.staleServerKeys now ttl pending →
      t.store.getByServerKey session.serverKey = some ref
        ∨ session.dialogIsStale now ttl ackGrace pending = true
  | _ => True

/-! ### What a call keeps -/

variable {t : Tracked}

theorem dialogs_removeByServerKey_iff (h : t.store.WellFormed) (ht : t.Consistent)
    (serverKey : TransactionKey) :
  (∀ dialogKey ref, (t.store.removeByServerKey serverKey).byDialogKey.get? dialogKey = some ref →
      ref ∈ t.without [serverKey])
    ↔ t.DialogsFit (.removeByServerKey serverKey)
  := by
  simp only [DialogsFit, get?_byDialogKey_removeByServerKey, mem_without,
    List.mem_singleton]
  apply forall₂_congr
  intro dialogKey ref
  constructor
  · intro hafter hentry hserver
    by_contra hother
    exact (hafter ⟨hentry, fun hfirst => hother hfirst.1⟩).2 serverKey hserver rfl
  · rintro hfit ⟨hentry, hother⟩
    refine ⟨ht.dialogs dialogKey ref hentry, ?_⟩
    rintro key hserver rfl
    exact hother ⟨hfit hentry hserver, h.dialogs dialogKey ref hentry⟩

theorem dialogs_keepDialogForLateAnswer_iff (ht : t.Consistent) (now : Instant) (ref : SessionRef) :
  (∀ dialogKey r,
      (t.store.keepDialogForLateAnswer now ref).byDialogKey.get? dialogKey = some r → r ∈ t.live)
    ↔ t.DialogsFit (.keepDialogForLateAnswer now ref)
  := by
  cases hsession : t.store.session? ref with
  | none =>
    simp only [keepDialogForLateAnswer, DialogsFit,
      dialogKey?, hsession]
    exact iff_of_true ht.dialogs (by simp)
  | some session =>
    simp only [keepDialogForLateAnswer, DialogsFit, dialogKey?,
      hsession, Option.bind_some, get?_recordDialog]
    constructor
    · intro hafter dialogKey hkey hnone
      exact hafter dialogKey ref (.inr ⟨hnone, hkey, rfl⟩)
    · rintro hfit dialogKey r (hentry | ⟨hnone, hkey, rfl⟩)
      · exact ht.dialogs dialogKey r hentry
      · exact hfit dialogKey hkey hnone

section

variable (h : t.store.WellFormed) (ht : t.Consistent)
include h ht

theorem dialogs_sweepInner_iff (now : Instant) (ttl ackGrace : Duration)
    (pending : TransactionKey → Bool) :
  (∀ dialogKey ref,
      (t.store.sweepInner now ttl ackGrace pending).1.byDialogKey.get? dialogKey = some ref →
      ref ∈ t.without (t.store.staleServerKeys now ttl pending))
    ↔ t.DialogsFit (.sweep now ttl ackGrace pending)
  := by
  simp only [get?_byDialogKey_sweepInner h ht.inverts, mem_without, DialogsFit]
  constructor
  · intro hafter dialogKey ref session hentry hsession hstale
    by_contra hkept
    rw [not_or] at hkept
    have hserver : t.store.serverKey? ref = some session.serverKey := by
      simp [serverKey?, hsession]
    refine (hafter dialogKey ref ⟨hentry, ?_, ?_⟩).2 _ hserver hstale
    · intro key _ hfirst
      have hkey := serverKey?_of_getByServerKey ht.inverts hfirst
      rw [hserver, Option.some.injEq] at hkey
      exact hkept.1 (hkey ▸ hfirst)
    · intro session' hsession'
      rw [hsession, Option.some.injEq] at hsession'
      simpa [hsession'] using hkept.2
  · rintro hfit dialogKey ref ⟨hentry, hothers, hfresh⟩
    refine ⟨ht.dialogs dialogKey ref hentry, ?_⟩
    intro key hserver hstale
    obtain ⟨session, hsession, rfl⟩ := Option.map_eq_some_iff.mp hserver
    rcases hfit dialogKey ref session hentry hsession hstale with hfirst | hdialog
    · exact hothers _ hstale hfirst
    · rw [hfresh session hsession] at hdialog
      cases hdialog

theorem dialogs_step_iff (op : StoreOp) :
  (∀ dialogKey ref, (t.store.step op).byDialogKey.get? dialogKey = some ref →
      ref ∈ t.liveAfter op)
    ↔ t.DialogsFit op
  := by
  -- a call that removes no session and makes no entry
  have hquiet (hlive : t.liveAfter op = t.live) (hentries : ∀ dialogKey ref,
      (t.store.step op).byDialogKey.get? dialogKey = some ref →
        t.store.byDialogKey.get? dialogKey = some ref) :
      ∀ dialogKey ref, (t.store.step op).byDialogKey.get? dialogKey = some ref →
        ref ∈ t.liveAfter op := by
    intro dialogKey ref hentry
    rw [hlive]
    exact ht.dialogs dialogKey ref (hentries dialogKey ref hentry)
  cases op with
  | insert session | insertForFork session =>
    apply iff_of_true _ trivial
    intro dialogKey ref hentry
    rw [liveAfter, List.mem_append, List.mem_singleton]
    rcases get?_recordDialog.mp hentry with hentry | ⟨-, -, rfl⟩
    · exact .inl (ht.dialogs dialogKey ref hentry)
    · exact .inr rfl
  | removeByServerKey serverKey => exact dialogs_removeByServerKey_iff h ht serverKey
  | keepDialogForLateAnswer now ref => exact dialogs_keepDialogForLateAnswer_iff ht now ref
  | sweep now ttl ackGrace pending => exact dialogs_sweepInner_iff h ht now ttl ackGrace pending
  | removeDialogKey request =>
    apply iff_of_true (hquiet rfl _) trivial
    intro dialogKey ref hentry
    simp only [step, removeDialogKey] at hentry
    split at hentry
    · rw [IndexMap.get?_shiftRemove] at hentry
      split at hentry
      · cases hentry
      · exact hentry
    · exact hentry
  | _ =>
    apply iff_of_true (hquiet rfl _) trivial
    intro dialogKey ref hentry
    rwa [(indexes_step t.store _).2 rfl] at hentry

/-- Just the operations that fit keep the store consistent. -/
theorem consistent_step_iff (op : StoreOp) :
  (machine.step t op).1.Consistent ↔ op.KeysFit t.store ∧ t.DialogsFit op
  := by
  rw [← inverts_step_iff h ht.inverts, ← dialogs_step_iff h ht]
  exact ⟨fun hafter => ⟨hafter.inverts, hafter.dialogs⟩, fun hafter => ⟨hafter.1, hafter.2⟩⟩

end

/-! ### Runs -/

/-- A store is consistent throughout a run if and only if each call of the run fits the store it
finds: its client keys lead to no session of another server key and are given once, a branch is
registered under the server key of its session, and no dialog-key entry is left, or made, to a
session that is removed. -/
theorem consistent_run_iff (ops : List StoreOp) :
  (∀ before, before <+: ops → (machine.run start before).Consistent)
    ↔ ∀ before op, before ++ [op] <+: ops →
      op.KeysFit (machine.run start before).store ∧ (machine.run start before).DialogsFit op
  := by
  have halways : machine.Invariant fun t => t.store.WellFormed := fun t op h => h.step op
  exact halways.run_iff (fun t op h ht => consistent_step_iff h ht op)
    wellFormed_new consistent_start ops

end Tracked

def inviteRequest (callId : Text) : SipMessage :=
  ⟨.request ⟨.invite, ⟨.sip, none, "b.example".toList, none, [], none⟩, .sip20⟩,
    (SipHeaders.new.add "Call-ID".toList callId).add "From".toList "<sip:a.example>;tag=1".toList,
    []⟩

def inviteKey (branch : Text) : TransactionKey :=
  ⟨branch, .invite, "a.example".toList⟩

def inviteSession (now : Instant) (serverBranch callId : Text) (clientBranches : List Text) :
    ProxySession :=
  { ProxySession.new now (inviteKey serverBranch) (inviteRequest callId) with
    clientKeys := clientBranches.map inviteKey }

def storeAfter (ops : List StoreOp) : Tracked :=
  (@Tracked.machine StdText.ascii).run Tracked.start ops

/-- Two sessions with one client key, under two server keys. -/
def reusedClientKey : List StoreOp :=
  [.insert (inviteSession 0 ['s'] ['x'] [['c']]), .insert (inviteSession 0 ['t'] ['y'] [['c']])]

/-- Two sessions under one server key, which is then removed. -/
def sharedServerKey : List StoreOp :=
  [.insert (inviteSession 0 ['s'] ['x'] [['c']]), .insert (inviteSession 0 ['s'] ['y'] [['d']]),
    .removeByServerKey (inviteKey ['s'])]

/-- A client key that is inserted again under another server key stays listed under the first one;
one that a new session has twice is listed twice; and when two sessions share a server key that is
removed, the dialog-key entry of the second one stays. -/
theorem inconsistent_runs :
  inviteKey ['c'] ∈ (storeAfter reusedClientKey).store.clientKeysOf (inviteKey ['s'])
    ∧ (storeAfter reusedClientKey).store.serverKeyOf (inviteKey ['c']) = some (inviteKey ['t'])
    ∧ (storeAfter [.insert (inviteSession 0 ['s'] ['x'] [['c'], ['c']])]).store.clientKeysOf
      (inviteKey ['s']) = [inviteKey ['c'], inviteKey ['c']]
    ∧ (storeAfter sharedServerKey).store.byDialogKey.get? ['y', '\x00', '1'] = some 1
    ∧ 1 ∉ (storeAfter sharedServerKey).live
  := by
  decide +kernel

end Siphon.Proxy
