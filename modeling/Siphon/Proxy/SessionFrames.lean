import Siphon.Proxy.SessionConsistency

/-!
# What the calls leave alone

A sweep is to leave the rows of a session that has a branch pending, and no call is to touch the
dialog-key entry of a session it is not made for.
-/

namespace Siphon.Proxy

open Siphon.Transaction (TransactionKey Instant Duration)
open Tracked

namespace ProxySessionStore

variable {s : ProxySessionStore}

/-! ### Sessions with a branch pending -/

/-- The rows of the sessions with a branch pending are still there. -/
structure SparesPending (pending : TransactionKey → Bool) (s s' : ProxySessionStore) : Prop where
  rows : ∀ clientKey ref session, s.byClientKey.get? clientKey = some ref →
    s.session? ref = some session → session.awaits pending = true →
      s'.byClientKey.get? clientKey = some ref
  dialogs : ∀ dialogKey ref session, s.byDialogKey.get? dialogKey = some ref →
    s.session? ref = some session → session.awaits pending = true →
      s'.byDialogKey.get? dialogKey = some ref

variable {ref : SessionRef}

theorem not_mem_staleDialogKeys {now : Instant} {ttl ackGrace : Duration}
    {pending : TransactionKey → Bool} {dialogKey : Text} {session : ProxySession}
    (hentry : s.byDialogKey.get? dialogKey = some ref) (hsession : s.session? ref = some session)
    (hawaits : session.awaits pending = true) :
  dialogKey ∉ s.staleDialogKeys now ttl ackGrace pending
  := by
  intro hmem
  obtain ⟨ref', session', hentry', hsession', hstale⟩ := mem_staleDialogKeys.mp hmem
  rw [hentry, Option.some.injEq] at hentry'
  subst hentry'
  rw [hsession, Option.some.injEq] at hsession'
  subst hsession'
  simp [ProxySession.dialogIsStale, hawaits] at hstale

variable [StdText]

theorem get?_byDialogKey_foldl_of_forall {keys : List TransactionKey} {dialogKey : Text}
    (hentry : s.byDialogKey.get? dialogKey = some ref)
    (h : ∀ key ∈ keys, ∀ clientKey ∈ s.clientKeysOf key, s.byClientKey.get? clientKey ≠ some ref) :
  (keys.foldl removeByServerKey s).byDialogKey.get? dialogKey = some ref
  := by
  induction keys generalizing s with
  | nil => exact hentry
  | cons key keys ih =>
  rw [List.forall_mem_cons] at h
  apply ih
  · apply get?_byDialogKey_removeByServerKey.mpr ⟨hentry, _⟩
    rintro ⟨hfirst, -⟩
    obtain ⟨first, hhead, hrow⟩ := getByServerKey_eq_some_iff.mp hfirst
    exact h.1 first (List.mem_of_mem_head? hhead) hrow
  · intro k hk clientKey hmem
    rw [clientKeysOf_removeByServerKey] at hmem
    rw [get?_byClientKey_removeByServerKey]
    split
    · simp
    by_cases hkey : k = key
    · simp [hkey] at hmem
    · rw [Function.update_of_ne hkey] at hmem
      exact h.2 k hk clientKey hmem

theorem get?_byClientKey_sweepInner {now : Instant} {ttl ackGrace : Duration}
    {pending : TransactionKey → Bool} {clientKey : TransactionKey} :
  (s.sweepInner now ttl ackGrace pending).1.byClientKey.get? clientKey = some ref
    ↔ s.byClientKey.get? clientKey = some ref
      ∧ ∀ key ∈ s.staleServerKeys now ttl pending, clientKey ∉ s.clientKeysOf key
  := by
  rw [(sameIndexes_sweepInner s now ttl ackGrace pending).byClientKey]
  exact get?_byClientKey_foldl_removeByServerKey

/-- In every store, a sweep leaves the rows of the sessions with a branch pending if and only if no
client key of such a session is listed under the server key of a stale one. -/
theorem sparesPending_sweepInner_iff (s : ProxySessionStore) (now : Instant)
    (ttl ackGrace : Duration) (pending : TransactionKey → Bool) :
  SparesPending pending s (s.sweepInner now ttl ackGrace pending).1
    ↔ ∀ staleKey staleRef stale, s.byClientKey.get? staleKey = some staleRef →
      s.session? staleRef = some stale → stale.isStale now ttl pending = true →
      ∀ clientKey ∈ s.clientKeysOf stale.serverKey, ∀ ref session,
        s.byClientKey.get? clientKey = some ref → s.session? ref = some session →
        session.awaits pending = false
  := by
  constructor
  · intro hspares staleKey staleRef stale hstaleRow hstaleSession hstale clientKey hmem ref session
      hrow hsession
    by_contra hawaits
    have hkept := hspares.rows clientKey ref session hrow hsession (by simpa using hawaits)
    exact (get?_byClientKey_sweepInner.mp hkept).2 stale.serverKey
      (mem_staleServerKeys.mpr ⟨staleKey, staleRef, stale, hstaleRow, hstaleSession, hstale, rfl⟩)
      hmem
  · intro hapart
    have hunlisted : ∀ ref session, s.session? ref = some session →
        session.awaits pending = true → ∀ key ∈ s.staleServerKeys now ttl pending,
          ∀ clientKey ∈ s.clientKeysOf key, s.byClientKey.get? clientKey ≠ some ref := by
      intro ref session hsession hawaits key hkey clientKey hmem hrow
      obtain ⟨staleKey, staleRef, stale, hstaleRow, hstaleSession, hstale, rfl⟩ :=
        mem_staleServerKeys.mp hkey
      have hnot := hapart staleKey staleRef stale hstaleRow hstaleSession hstale clientKey hmem ref
        session hrow hsession
      rw [hawaits] at hnot
      cases hnot
    constructor
    · intro clientKey ref session hrow hsession hawaits
      apply get?_byClientKey_sweepInner.mpr ⟨hrow, _⟩
      intro key hkey hmem
      exact hunlisted ref session hsession hawaits key hkey clientKey hmem hrow
    intro dialogKey ref session hentry hsession hawaits
    have hkept := get?_byDialogKey_foldl_of_forall hentry
      (hunlisted ref session hsession hawaits)
    rw [(sameIndexes_sweepInner s now ttl ackGrace pending).byDialogKey]
    rw [IndexMap.get?_removeAll, if_neg]
    · exact hkept
    · apply not_mem_staleDialogKeys hkept _ hawaits
      rw [session?, sessions_foldl_removeByServerKey]
      exact hsession

end ProxySessionStore

/-- Two sessions under one server key: the client key of the first is pending, the second is
stale. -/
def staleBesidePending : List StoreOp :=
  [.insert (inviteSession 0 ['s'] ['x'] [['c']]), .insert (inviteSession 0 ['s'] ['y'] [['d']])]

/-- A sweep removes the client key and the dialog-key entry of a session with a branch pending, on
account of a stale session under the same server key. -/
theorem sweep_removes_pending :
  (storeAfter staleBesidePending).store.byClientKey.get? (inviteKey ['c']) = some 0
    ∧ (storeAfter staleBesidePending).store.byDialogKey.get? ['x', '\x00', '1'] = some 0
    ∧ (inviteSession 0 ['s'] ['x'] [['c']]).awaits (· = inviteKey ['c']) = true
    ∧ (storeAfter (staleBesidePending ++
      [.sweep 2 1 1 (· = inviteKey ['c'])])).store.byClientKey.get? (inviteKey ['c']) = none
    ∧ (storeAfter (staleBesidePending ++
      [.sweep 2 1 1 (· = inviteKey ['c'])])).store.byDialogKey.get? ['x', '\x00', '1'] = none
  := by
  decide +kernel

/-! ### Dialogs of other sessions -/

section

variable [StdText]

/-- The sessions a call is made for. -/
def StoreOp.ActsFor (s : ProxySessionStore) (ref : SessionRef) : StoreOp → Prop
  | .insert _ | .insertForFork _ => ref = s.sessions.length
  | .registerForkBranch r _ _ _ _ | .keepDialogForLateAnswer _ r | .markDialogAcked _ r
  | .keepDialogForAnswer _ _ r => ref = r
  | .updateBranchConnectionId key _ | .removeClientKey key => s.byClientKey.get? key = some ref
  | .addClientKey serverKey _ | .removeByServerKey serverKey => s.serverKey? ref = some serverKey
  | .removeDialogKey request => (s.session? ref).map ProxySession.originalRequest = some request
  | .sweep now ttl ackGrace pending =>
    ∃ session, s.session? ref = some session
      ∧ (session.isStale now ttl pending = true
        ∨ session.dialogIsStale now ttl ackGrace pending = true)
  | _ => False

/-- A call leaves the dialog-key entries of the sessions it is not made for. -/
def LeavesOthers (s : ProxySessionStore) (op : StoreOp) : Prop :=
  ∀ dialogKey ref, s.byDialogKey.get? dialogKey = some ref → ¬ op.ActsFor s ref →
    (s.step op).byDialogKey.get? dialogKey = some ref

/-- Whether a call finds no entry of another session in its way: the dialog of a request is led to
a session of that request, and the session found by the server key of a stale one has no entry or
is stale as well. -/
def StoreOp.OwnsDialog (s : ProxySessionStore) (op : StoreOp) : Prop :=
  match op with
  | .removeDialogKey request =>
    ∀ dialogKey ref, inviteDialogKey request = some dialogKey →
      s.byDialogKey.get? dialogKey = some ref → op.ActsFor s ref
  | .sweep now ttl _ pending =>
    ∀ serverKey ∈ s.staleServerKeys now ttl pending, ∀ ref, s.getByServerKey serverKey = some ref →
      ∀ dialogKey, s.byDialogKey.get? dialogKey = some ref → op.ActsFor s ref
  | _ => True

namespace ProxySessionStore

variable {s : ProxySessionStore}

theorem leavesOthers_sweep_iff (h : s.WellFormed) (hinv : Inverts s.serverKeyOf s.clientKeysOf)
    (now : Instant) (ttl ackGrace : Duration) (pending : TransactionKey → Bool) :
  LeavesOthers s (.sweep now ttl ackGrace pending)
    ↔ (StoreOp.sweep now ttl ackGrace pending).OwnsDialog s
  := by
  simp only [LeavesOthers, step, get?_byDialogKey_sweepInner h hinv, StoreOp.OwnsDialog]
  constructor
  · intro hleaves serverKey hstale ref hfirst dialogKey hentry
    by_contra hother
    exact (hleaves dialogKey ref hentry hother).2.1 serverKey hstale hfirst
  intro howns dialogKey ref hentry hother
  refine ⟨hentry, ?_, ?_⟩
  · intro serverKey hstale hfirst
    exact hother (howns serverKey hstale ref hfirst dialogKey hentry)
  · intro session hsession
    by_contra hstale
    exact hother ⟨session, hsession, .inr (by simpa using hstale)⟩

theorem leavesOthers_removeDialogKey_iff (request : SipMessage) :
  LeavesOthers s (.removeDialogKey request) ↔ (StoreOp.removeDialogKey request).OwnsDialog s
  := by
  simp only [LeavesOthers, step, removeDialogKey, StoreOp.OwnsDialog]
  cases hkey : inviteDialogKey request with
  | none => simpa using fun _ _ hentry _ => hentry
  | some dialogKey =>
  simp only [IndexMap.get?_shiftRemove, Option.some.injEq]
  constructor
  · rintro hleaves _ ref rfl hentry
    by_contra hother
    simpa using hleaves dialogKey ref hentry hother
  · intro howns key ref hentry hother
    rw [if_neg]
    · exact hentry
    · rintro rfl
      exact hother (howns key ref rfl hentry)

theorem leavesOthers_iff (h : s.WellFormed) (hinv : Inverts s.serverKeyOf s.clientKeysOf)
    (op : StoreOp) :
  LeavesOthers s op ↔ op.OwnsDialog s
  := by
  -- a call that leaves all entries
  have hquiet (hentries : ∀ dialogKey ref, s.byDialogKey.get? dialogKey = some ref →
      (s.step op).byDialogKey.get? dialogKey = some ref) :
      LeavesOthers s op :=
    fun dialogKey ref hentry _ => hentries dialogKey ref hentry
  cases op with
  | insert session | insertForFork session =>
    exact iff_of_true (hquiet fun _ _ hentry => get?_recordDialog.mpr (.inl hentry)) trivial
  | removeByServerKey serverKey =>
    apply iff_of_true _ trivial
    intro dialogKey ref hentry hother
    apply get?_byDialogKey_removeByServerKey.mpr ⟨hentry, _⟩
    rintro ⟨hfirst, -⟩
    exact hother (serverKey?_of_getByServerKey hinv hfirst)
  | removeDialogKey request => exact leavesOthers_removeDialogKey_iff request
  | keepDialogForLateAnswer now ref =>
    apply iff_of_true (hquiet _) trivial
    intro dialogKey r hentry
    simp only [step, keepDialogForLateAnswer]
    split
    · exact get?_recordDialog.mpr (.inl hentry)
    · exact hentry
  | sweep now ttl ackGrace pending => exact leavesOthers_sweep_iff h hinv now ttl ackGrace pending
  | _ =>
    apply iff_of_true (hquiet _) trivial
    intro dialogKey ref hentry
    rwa [(indexes_step s _).2 rfl]

end ProxySessionStore

/-- In every run whose client keys fit, a further call leaves the dialog-key entries of the sessions
it is not made for if and only if it finds none in its way: only the removal of a request's dialog
and a sweep can. -/
theorem leavesOthers_run_iff (ops : List StoreOp)
    (hfit : ∀ before op, before ++ [op] <+: ops →
      op.KeysFit (machine.run start before).store) (op : StoreOp) :
  LeavesOthers (machine.run start ops).store op
    ↔ op.OwnsDialog (machine.run start ops).store
  := by
  have halways : machine.Invariant fun t => t.store.WellFormed := fun t op h => h.step op
  have hstep (t : Tracked) (op : StoreOp) (h : t.store.WellFormed)
      (hinv : Inverts t.store.serverKeyOf t.store.clientKeysOf) :
      Inverts (machine.step t op).1.store.serverKeyOf
        (machine.step t op).1.store.clientKeysOf ↔ op.KeysFit t.store :=
    ProxySessionStore.inverts_step_iff h hinv op
  have hinv := (halways.run_iff hstep ProxySessionStore.wellFormed_new
    consistent_start.inverts ops).mpr hfit ops (List.prefix_refl ops)
  exact ProxySessionStore.leavesOthers_iff (halways.run ProxySessionStore.wellFormed_new ops) hinv
    op

end

def relayedInvite : List StoreOp :=
  [.insert (inviteSession 0 ['s'] ['x'] [['c']])]

/-- A request in the dialog of that INVITE. -/
def reinviteRequest : SipMessage :=
  { inviteRequest ['x'] with
    headers := (inviteRequest ['x']).headers.add "CSeq".toList "2 INVITE".toList }

/-- The request in its dialog is relayed as well. -/
def relayedReinvite : List StoreOp :=
  relayedInvite ++
    [.insert { inviteSession 0 ['t'] ['x'] [['d']] with originalRequest := reinviteRequest }]

/-- An INVITE that is rejected takes no dialog-key entry of another session along. -/
theorem leavesOthers_of_own_reject :
  @LeavesOthers StdText.ascii (storeAfter relayedInvite).store
    (.removeDialogKey (inviteRequest ['x']))
  := by
  apply (@leavesOthers_run_iff StdText.ascii relayedInvite _ _).mpr
  · intro dialogKey ref hkey hentry
    have hdialog : @inviteDialogKey StdText.ascii (inviteRequest ['x'])
        = some ['x', '\x00', '1'] := by
      decide +kernel
    have hlead : (storeAfter relayedInvite).store.byDialogKey.get? ['x', '\x00', '1'] = some 0 := by
      decide +kernel
    obtain rfl := Option.some.inj (hdialog.symm.trans hkey)
    obtain rfl := Option.some.inj (hlead.symm.trans hentry)
    rfl
  · intro before op hpre
    cases before with
    | nil =>
      obtain rfl : op = .insert (inviteSession 0 ['s'] ['x'] [['c']]) := by
        simpa [relayedInvite] using hpre
      exact ⟨fun _ => by decide, by decide⟩
    | cons b bs => simp [relayedInvite] at hpre

/-- A request in the dialog of an INVITE that is rejected takes along the dialog-key entry of the
INVITE, whose session is still in the store. -/
theorem reject_removes_other_dialog :
  (storeAfter relayedReinvite).store.byDialogKey.get? ['x', '\x00', '1'] = some 0
    ∧ inviteRequest ['x'] ≠ reinviteRequest
    ∧ (storeAfter (relayedReinvite ++
      [.removeDialogKey reinviteRequest])).store.byDialogKey.get? ['x', '\x00', '1'] = none
    ∧ (storeAfter (relayedReinvite ++
      [.removeDialogKey reinviteRequest])).store.byClientKey.get? (inviteKey ['c']) = some 0
    ∧ 0 ∈ (storeAfter (relayedReinvite ++ [.removeDialogKey reinviteRequest])).live
  := by
  decide +kernel

end Siphon.Proxy
