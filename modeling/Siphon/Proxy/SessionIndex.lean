import Siphon.Library.Inverse
import Siphon.Proxy.Session

/-!
# The indexes of the session store

What each call does to the rows of client keys, to the lists of client keys under the server keys
and to the dialog-key entries.
-/

namespace Siphon.Proxy

open List IndexMap

open Siphon.Transaction (TransactionKey Instant Duration)

variable {keys : List TransactionKey} {ref : SessionRef} {dialogKey : Text}
  {serverKey : TransactionKey}

/-- Whether a call can change the rows of client keys or their lists. -/
def StoreOp.linksKeys : StoreOp → Bool
  | .insert _ | .insertForFork _ | .registerForkBranch .. | .addClientKey .. | .removeByServerKey _
  | .removeClientKey _ | .sweep .. => true
  | _ => false

/-- Whether a call can change the dialog-key entries. -/
def StoreOp.recordsDialogs : StoreOp → Bool
  | .insert _ | .insertForFork _ | .removeByServerKey _ | .removeDialogKey _
  | .keepDialogForLateAnswer .. | .sweep .. => true
  | _ => false

/-- Whether a call is about answers that come late. -/
def StoreOp.isLate : StoreOp → Bool
  | .noteLateDialog .. | .takeLateDialog _ | .noteForwardedAnswer _
  | .forgetForwardedAnswer _ => true
  | _ => false

variable {key : TransactionKey}

namespace ProxySessionStore

def clientKeysOf (s : ProxySessionStore) (serverKey : TransactionKey) : List TransactionKey :=
  (s.serverToClients.get? serverKey).getD []

def serverKeyOf (s : ProxySessionStore) (clientKey : TransactionKey) : Option TransactionKey :=
  (s.byClientKey.get? clientKey).bind s.serverKey?

variable {s s' : ProxySessionStore}

/-! ### Lists of keys -/

theorem mem_pushNew {k : TransactionKey} :
  k ∈ pushNew keys key ↔ k ∈ keys ∨ k = key
  := by
  rw [pushNew]
  split
  · rename_i h
    simp only [iff_self_or]
    rintro rfl
    simpa using h
  · simp

theorem nodup_pushNew (h : keys.Nodup) (key : TransactionKey) :
  (pushNew keys key).Nodup
  := by
  rw [pushNew]
  split
  · exact h
  rename_i hnot
  exact nodup_append.mpr ⟨h, nodup_singleton key, by
    rintro a ha b hb rfl
    rw [mem_singleton.mp hb] at ha
    exact hnot (by simpa using ha)⟩

theorem mem_foldl_pushNew {more : List TransactionKey} {k : TransactionKey} :
  k ∈ more.foldl pushNew keys ↔ k ∈ keys ∨ k ∈ more
  := by
  induction more generalizing keys with
  | nil => simp
  | cons key more ih => rw [foldl_cons, ih, mem_pushNew, mem_cons, or_assoc]

theorem nodup_foldl_pushNew (h : keys.Nodup) (more : List TransactionKey) :
  (more.foldl pushNew keys).Nodup
  := by
  induction more generalizing keys with
  | nil => exact h
  | cons key more ih => exact ih (nodup_pushNew h key)

/-! ### The sessions behind the references -/

/-- Two stores with the same sessions and the same indexes. -/
structure SameIndexes (s s' : ProxySessionStore) : Prop where
  sessions : s'.sessions = s.sessions
  byClientKey : s'.byClientKey = s.byClientKey
  serverToClients : s'.serverToClients = s.serverToClients
  byDialogKey : s'.byDialogKey = s.byDialogKey

theorem sameIndexes_forgetLateDialog {key : Text} (h : s.forgetLateDialog key = some s') :
  SameIndexes s s'
  := by
  rw [forgetLateDialog] at h
  split at h
  · cases h
    exact ⟨rfl, rfl, rfl, rfl⟩
  · cases h

/-! ### Removing a client key -/

theorem get?_byClientKey_removeClientKey (s : ProxySessionStore) (clientKey key : TransactionKey) :
  (s.removeClientKey clientKey).1.byClientKey.get? key
    = if key = clientKey then none else s.byClientKey.get? key
  := by
  rw [removeClientKey]
  split
  · exact get?_shiftRemove s.byClientKey clientKey key
  · rename_i hnone
    by_cases h : key = clientKey <;> simp [h, hnone]

@[simp] theorem byDialogKey_removeClientKey (s : ProxySessionStore) (clientKey : TransactionKey) :
  (s.removeClientKey clientKey).1.byDialogKey = s.byDialogKey
  := by
  rw [removeClientKey]
  split <;> rfl

variable [StdText]

/-- The sessions of a store are sessions of another, with the same server and dialog keys. -/
structure Keeps (s s' : ProxySessionStore) : Prop where
  length_le : s.sessions.length ≤ s'.sessions.length
  serverKey : ∀ ref < s.sessions.length, s'.serverKey? ref = s.serverKey? ref
  dialogKey : ∀ ref < s.sessions.length, s'.dialogKey? ref = s.dialogKey? ref

theorem keeps_of_sessions_eq (h : s'.sessions = s.sessions) : Keeps s s' := by
  constructor <;> simp [h, serverKey?, dialogKey?, session?]

theorem keeps_append {session : ProxySession} (h : s'.sessions = s.sessions ++ [session]) :
  Keeps s s'
  := by
  refine ⟨by simp [h], ?_, ?_⟩ <;> intro ref href <;>
    simp [h, serverKey?, dialogKey?, session?, List.getElem?_append_left href]

theorem keeps_modify {f : ProxySession → ProxySession} (h : s'.sessions = s.sessions.modify ref f)
    (hserver : ∀ session, (f session).serverKey = session.serverKey)
    (hrequest : ∀ session, (f session).originalRequest = session.originalRequest) :
  Keeps s s'
  := by
  refine ⟨by simp [h], ?_, ?_⟩ <;> intro r hr <;>
    by_cases href : ref = r <;>
    simp [h, serverKey?, dialogKey?, session?, href, hserver, hrequest,
      Function.comp_def, Option.bind_map]

theorem sameIndexes_takeLateDialog (bye : SipMessage) :
  SameIndexes s (s.takeLateDialog bye).1
  := by
  rw [takeLateDialog]
  split
  · exact ⟨rfl, rfl, rfl, rfl⟩
  split
  · rename_i h
    obtain ⟨key, -, h⟩ := Option.bind_eq_some_iff.mp h
    exact sameIndexes_forgetLateDialog h
  · split
    · rename_i h
      obtain ⟨key, -, h⟩ := Option.bind_eq_some_iff.mp h
      exact sameIndexes_forgetLateDialog h
    · exact ⟨rfl, rfl, rfl, rfl⟩

theorem sameIndexes_forgetForwardedAnswer (ack : SipMessage) :
  SameIndexes s (s.forgetForwardedAnswer ack)
  := by
  rw [forgetForwardedAnswer]
  split
  · exact ⟨rfl, rfl, rfl, rfl⟩
  · split
    · split <;> exact ⟨rfl, rfl, rfl, rfl⟩
    · exact ⟨rfl, rfl, rfl, rfl⟩

theorem sameIndexes_step {op : StoreOp} (h : op.isLate = true) :
  SameIndexes s (s.step op)
  := by
  cases op with
  | noteLateDialog now response =>
    rw [step, noteLateDialog]
    split <;> exact ⟨rfl, rfl, rfl, rfl⟩
  | takeLateDialog bye => exact sameIndexes_takeLateDialog bye
  | noteForwardedAnswer answer =>
    rw [step, noteForwardedAnswer]
    split <;> exact ⟨rfl, rfl, rfl, rfl⟩
  | forgetForwardedAnswer ack => exact sameIndexes_forgetForwardedAnswer ack
  | _ => cases h

theorem sameIndexes_sweepInner (s : ProxySessionStore) (now : Instant) (ttl ackGrace : Duration)
    (pending : TransactionKey → Bool) :
  let swept := (s.staleServerKeys now ttl pending).foldl removeByServerKey s
  SameIndexes { swept with
      byDialogKey := swept.byDialogKey.removeAll (swept.staleDialogKeys now ttl ackGrace pending) }
    (s.sweepInner now ttl ackGrace pending).1
  := by
  intro swept
  rw [sweepInner, sweepForwardedAnswers, sweepLateDialogs]
  split <;> split <;> exact ⟨rfl, rfl, rfl, rfl⟩

@[simp] theorem sessions_removeByServerKey (s : ProxySessionStore) (serverKey : TransactionKey) :
  (s.removeByServerKey serverKey).sessions = s.sessions
  := by
  rw [removeByServerKey]
  split <;> rfl

@[simp] theorem sessions_foldl_removeByServerKey (keys : List TransactionKey) :
  (keys.foldl removeByServerKey s).sessions = s.sessions
  := by
  induction keys generalizing s with
  | nil => rfl
  | cons key keys ih => rw [foldl_cons, ih, sessions_removeByServerKey]

/-- A call keeps the sessions and their keys. -/
theorem keeps_step (s : ProxySessionStore) (op : StoreOp) :
  Keeps s (s.step op)
  := by
  cases op with
  | insert | insertForFork => exact keeps_append rfl
  | registerForkBranch ref serverKey clientKey branch branchIndex =>
    simp only [step]
    split
    · exact keeps_modify rfl (fun _ => rfl) fun _ => rfl
    · exact keeps_of_sessions_eq rfl
  | updateBranchConnectionId clientKey connectionId =>
    simp only [step, updateBranchConnectionId]
    split
    · apply keeps_modify rfl <;> intro session <;> split <;> rfl
    · exact keeps_of_sessions_eq rfl
  | addClientKey serverKey clientKey =>
    simp only [step, addClientKey]
    split
    · exact keeps_modify rfl (fun _ => rfl) fun _ => rfl
    · exact keeps_of_sessions_eq rfl
  | removeByServerKey serverKey => exact keeps_of_sessions_eq (sessions_removeByServerKey s _)
  | removeDialogKey request =>
    simp only [step, removeDialogKey]
    split <;> exact keeps_of_sessions_eq rfl
  | keepDialogForLateAnswer now ref =>
    simp only [step, keepDialogForLateAnswer]
    split
    · exact keeps_modify rfl (fun _ => rfl) fun _ => rfl
    · exact keeps_of_sessions_eq rfl
  | removeClientKey clientKey =>
    simp only [step, removeClientKey]
    split <;> exact keeps_of_sessions_eq rfl
  | markDialogAcked now ref | keepDialogForAnswer now staleAfter ref =>
    apply keeps_modify rfl <;> intro session <;> split <;> rfl
  | sweep now ttl ackGrace pending =>
    apply keeps_of_sessions_eq
    rw [step, (sameIndexes_sweepInner s now ttl ackGrace pending).sessions]
    exact sessions_foldl_removeByServerKey _
  | noteLateDialog | takeLateDialog | noteForwardedAnswer | forgetForwardedAnswer =>
    exact keeps_of_sessions_eq (sameIndexes_step rfl).sessions

/-- A call leaves the client keys alone unless it links or removes some, and the dialog-key entries
unless it records or removes one. -/
theorem indexes_step (s : ProxySessionStore) (op : StoreOp) :
  (op.linksKeys = false → (s.step op).byClientKey = s.byClientKey
      ∧ (s.step op).serverToClients = s.serverToClients)
    ∧ (op.recordsDialogs = false → (s.step op).byDialogKey = s.byDialogKey)
  := by
  have hlate : op.isLate = true → SameIndexes s (s.step op) := sameIndexes_step
  cases op with
  | insert | insertForFork | removeByServerKey | sweep => exact ⟨Bool.noConfusion, Bool.noConfusion⟩
  | registerForkBranch =>
    refine ⟨Bool.noConfusion, fun _ => ?_⟩
    rw [step]
    split <;> rfl
  | addClientKey =>
    refine ⟨Bool.noConfusion, fun _ => ?_⟩
    rw [step, addClientKey]
    split <;> rfl
  | removeClientKey => exact ⟨Bool.noConfusion, fun _ => byDialogKey_removeClientKey s _⟩
  | removeDialogKey =>
    refine ⟨fun _ => ?_, Bool.noConfusion⟩
    rw [step, removeDialogKey]
    split <;> exact ⟨rfl, rfl⟩
  | keepDialogForLateAnswer =>
    refine ⟨fun _ => ?_, Bool.noConfusion⟩
    rw [step, keepDialogForLateAnswer]
    split <;> exact ⟨rfl, rfl⟩
  | updateBranchConnectionId =>
    rw [step, updateBranchConnectionId]
    split <;> exact ⟨fun _ => ⟨rfl, rfl⟩, fun _ => rfl⟩
  | markDialogAcked | keepDialogForAnswer => exact ⟨fun _ => ⟨rfl, rfl⟩, fun _ => rfl⟩
  | noteLateDialog | takeLateDialog | noteForwardedAnswer | forgetForwardedAnswer =>
    have hsame := hlate rfl
    exact ⟨fun _ => ⟨hsame.byClientKey, hsame.serverToClients⟩, fun _ => hsame.byDialogKey⟩

/-! ### What the calls do to the indexes -/

theorem get?_recordDialog {request : SipMessage} {r : SessionRef} :
  (s.recordDialog request ref).get? dialogKey = some r
    ↔ s.byDialogKey.get? dialogKey = some r
      ∨ s.byDialogKey.get? dialogKey = none ∧ inviteDialogKey request = some dialogKey ∧ r = ref
  := by
  rw [recordDialog]
  split
  · rename_i key hkey
    rw [get?_orInsert, hkey]
    by_cases h : dialogKey = key
    · subst h
      cases s.byDialogKey.get? dialogKey <;> simp [eq_comm]
    · simp [h, Ne.symm h]
  · rename_i hkey
    simp [hkey]

theorem get?_dropDialog {r : SessionRef} :
  (s.dropDialog r).get? dialogKey = some ref
    ↔ s.byDialogKey.get? dialogKey = some ref ∧ ¬ (r = ref ∧ s.dialogKey? ref = some dialogKey)
  := by
  rw [dropDialog]
  split
  · rename_i key hkey
    split
    · rename_i hown
      rw [get?_shiftRemove]
      by_cases h : dialogKey = key
      · subst h
        simp only [if_pos, reduceCtorEq, hown, Option.some.injEq, false_iff]
        rintro ⟨rfl, hnot⟩
        exact hnot ⟨rfl, hkey⟩
      · rw [if_neg h]
        simp only [iff_self_and, not_and]
        rintro - rfl
        simp [hkey, Ne.symm h]
    · rename_i hother
      simp only [iff_self_and, not_and]
      rintro hentry rfl hkey'
      rw [hkey, Option.some.injEq] at hkey'
      exact hother (hkey' ▸ hentry)
  · rename_i hkey
    simp only [iff_self_and, not_and]
    rintro - rfl
    simp [hkey]

theorem get?_byDialogKey_removeByServerKey :
  (s.removeByServerKey serverKey).byDialogKey.get? dialogKey = some ref
    ↔ s.byDialogKey.get? dialogKey = some ref
      ∧ ¬ (s.getByServerKey serverKey = some ref ∧ s.dialogKey? ref = some dialogKey)
  := by
  cases hlist : s.serverToClients.get? serverKey with
  | none =>
    have hnone : s.getByServerKey serverKey = none := by simp [getByServerKey, hlist]
    simp [removeByServerKey, hlist, hnone]
  | some clientKeys =>
    simp only [removeByServerKey, hlist]
    cases hfirst : s.getByServerKey serverKey with
    | none => simp
    | some r => simp [get?_dropDialog]

theorem get?_byClientKey_removeByServerKey (s : ProxySessionStore)
    (serverKey clientKey : TransactionKey) :
  (s.removeByServerKey serverKey).byClientKey.get? clientKey
    = if clientKey ∈ s.clientKeysOf serverKey then none else s.byClientKey.get? clientKey
  := by
  rw [removeByServerKey, clientKeysOf]
  split
  · rename_i hlist
    simp [hlist, get?_removeAll]
  · rename_i hlist
    simp [hlist]

theorem clientKeysOf_removeByServerKey (s : ProxySessionStore) (serverKey : TransactionKey) :
  (s.removeByServerKey serverKey).clientKeysOf = Function.update s.clientKeysOf serverKey []
  := by
  funext sk
  by_cases h : sk = serverKey
  · subst h
    rw [Function.update_self, clientKeysOf, removeByServerKey]
    split
    · simp [get?_shiftRemove]
    · rename_i hlist
      simp [hlist]
  · rw [Function.update_of_ne h, clientKeysOf, clientKeysOf, removeByServerKey]
    split
    · simp [get?_shiftRemove, h]
    · rfl

variable {clientKey : TransactionKey}

theorem get?_byClientKey_foldl_removeByServerKey :
  (keys.foldl removeByServerKey s).byClientKey.get? clientKey = some ref
    ↔ s.byClientKey.get? clientKey = some ref ∧ ∀ key ∈ keys, clientKey ∉ s.clientKeysOf key
  := by
  induction keys generalizing s with
  | nil => simp
  | cons key keys ih =>
  rw [foldl_cons, ih, get?_byClientKey_removeByServerKey, clientKeysOf_removeByServerKey,
    forall_mem_cons]
  by_cases hkey : clientKey ∈ s.clientKeysOf key
  · simp [hkey]
  simp only [hkey, if_false, not_false_eq_true, true_and, and_congr_right_iff]
  intro _
  constructor <;> intro h k hk <;> have hk := h k hk <;>
    by_cases heq : k = key <;> simp_all [Function.update]

/-! ### References that lead somewhere -/

/-- The indexes lead to sessions, and a dialog-key entry to one of that dialog. -/
structure WellFormed (s : ProxySessionStore) : Prop where
  rows : ∀ clientKey ref, s.byClientKey.get? clientKey = some ref → ref < s.sessions.length
  dialogs : ∀ dialogKey ref, s.byDialogKey.get? dialogKey = some ref →
    s.dialogKey? ref = some dialogKey

theorem lt_of_dialogKey? (h : s.dialogKey? ref = some dialogKey) :
  ref < s.sessions.length
  := by
  obtain ⟨session, hsession, -⟩ := Option.bind_eq_some_iff.mp h
  exact (List.getElem?_eq_some_iff.mp hsession).1

/-- A row of the client keys after a call was there before, or leads to a session. -/
theorem get?_byClientKey_step (h : s.WellFormed) {op : StoreOp}
    (hrow : (s.step op).byClientKey.get? clientKey = some ref) :
  s.byClientKey.get? clientKey = some ref ∨ ref < (s.step op).sessions.length
  := by
  cases op with
  | insert session =>
    simp only [step, insert, get?_insertAll] at hrow ⊢
    split at hrow
    · cases hrow
      simp
    · exact .inl hrow
  | registerForkBranch r serverKey key branch branchIndex =>
    simp only [step] at hrow ⊢
    split at hrow
    · rename_i hlt
      rw [if_pos hlt]
      simp only [registerForkBranch, link, write, get?_insert] at hrow ⊢
      split at hrow
      · cases hrow
        simpa using .inr hlt
      · exact .inl hrow
    · exact .inl hrow
  | addClientKey serverKey key =>
    simp only [step, addClientKey] at hrow ⊢
    split at hrow
    · rename_i hr
      simp only [link, write, get?_insert] at hrow ⊢
      split at hrow
      · cases hrow
        obtain ⟨_, -, hr⟩ := Option.bind_eq_some_iff.mp hr
        obtain ⟨first, -, hr⟩ := Option.bind_eq_some_iff.mp hr
        simpa using .inr (h.rows first _ hr)
      · exact .inl hrow
    · exact .inl hrow
  | removeByServerKey serverKey =>
    simp only [step, get?_byClientKey_removeByServerKey] at hrow
    split at hrow
    · cases hrow
    · exact .inl hrow
  | removeClientKey key =>
    simp only [step, get?_byClientKey_removeClientKey] at hrow
    split at hrow
    · cases hrow
    · exact .inl hrow
  | sweep now ttl ackGrace pending =>
    rw [step, (sameIndexes_sweepInner s now ttl ackGrace pending).byClientKey] at hrow
    exact .inl (get?_byClientKey_foldl_removeByServerKey.mp hrow).1
  | insertForFork => exact .inl hrow
  | _ =>
    rw [((indexes_step s _).1 rfl).1] at hrow
    exact .inl hrow

theorem get?_byDialogKey_foldl_removeByServerKey
    (h : (keys.foldl removeByServerKey s).byDialogKey.get? dialogKey = some ref) :
  s.byDialogKey.get? dialogKey = some ref
  := by
  induction keys generalizing s with
  | nil => exact h
  | cons key keys ih => exact (get?_byDialogKey_removeByServerKey.mp (ih h)).1

theorem get?_byDialogKey_step {op : StoreOp}
    (hentry : (s.step op).byDialogKey.get? dialogKey = some ref) :
  s.byDialogKey.get? dialogKey = some ref ∨ (s.step op).dialogKey? ref = some dialogKey
  := by
  cases op with
  | insert session =>
    rcases get?_recordDialog.mp hentry with hentry | ⟨-, hkey, rfl⟩
    · exact .inl hentry
    · exact .inr (by simpa [step, insert, dialogKey?, session?] using hkey)
  | insertForFork session =>
    rcases get?_recordDialog.mp hentry with hentry | ⟨-, hkey, rfl⟩
    · exact .inl hentry
    · exact .inr (by simpa [step, insertForFork, dialogKey?, session?] using hkey)
  | removeByServerKey serverKey => exact .inl (get?_byDialogKey_removeByServerKey.mp hentry).1
  | removeDialogKey request =>
    simp only [step, removeDialogKey] at hentry
    split at hentry
    · rw [get?_shiftRemove] at hentry
      split at hentry
      · cases hentry
      · exact .inl hentry
    · exact .inl hentry
  | keepDialogForLateAnswer now r =>
    simp only [step, keepDialogForLateAnswer] at hentry ⊢
    split at hentry
    · rename_i session hsession
      rcases get?_recordDialog.mp hentry with hentry | ⟨-, hkey, rfl⟩
      · exact .inl hentry
      · apply Or.inr
        simp only [session?] at hsession
        simpa [dialogKey?, session?, write, hsession] using hkey
    · exact .inl hentry
  | sweep now ttl ackGrace pending =>
    rw [step, (sameIndexes_sweepInner s now ttl ackGrace pending).byDialogKey] at hentry
    rw [get?_removeAll] at hentry
    split at hentry
    · cases hentry
    · exact .inl (get?_byDialogKey_foldl_removeByServerKey hentry)
  | _ =>
    rw [(indexes_step s _).2 rfl] at hentry
    exact .inl hentry

/-- Every operation keeps the store well-formed. -/
theorem WellFormed.step (h : s.WellFormed) (op : StoreOp) : (s.step op).WellFormed := by
  have hkeeps := keeps_step s op
  constructor
  · intro clientKey ref hrow
    rcases get?_byClientKey_step h hrow with hrow | hlt
    · exact (h.rows clientKey ref hrow).trans_le hkeeps.length_le
    · exact hlt
  · intro dialogKey ref hentry
    rcases get?_byDialogKey_step hentry with hentry | hkey
    · have hkey := h.dialogs dialogKey ref hentry
      rw [hkeeps.dialogKey ref (lt_of_dialogKey? hkey), hkey]
    · exact hkey

theorem WellFormed.removeByServerKey (h : s.WellFormed) (serverKey : TransactionKey) :
  (s.removeByServerKey serverKey).WellFormed
  := h.step (.removeByServerKey serverKey)

theorem wellFormed_new : new.WellFormed := by
  constructor <;> intro _ _ h <;> cases h

/-! ### The lists of client keys -/

theorem serverKeyOf_of_rows (h : s.WellFormed) (hkeeps : Keeps s s')
    (keys : List TransactionKey) (r : Option SessionRef)
    (hrows : ∀ k, s'.byClientKey.get? k = if k ∈ keys then r else s.byClientKey.get? k) :
  s'.serverKeyOf = fun k => if k ∈ keys then r.bind s'.serverKey? else s.serverKeyOf k
  := by
  funext k
  rw [serverKeyOf, hrows]
  split
  · rfl
  rw [serverKeyOf]
  cases hrow : s.byClientKey.get? k with
  | none => rfl
  | some ref => exact hkeeps.serverKey ref (h.rows k ref hrow)

theorem serverKeyOf_of_byClientKey_eq (h : s.WellFormed) (hkeeps : Keeps s s')
    (hrows : s'.byClientKey = s.byClientKey) :
  s'.serverKeyOf = s.serverKeyOf
  := by
  have hview := serverKeyOf_of_rows h hkeeps [] none (by simp [hrows])
  simpa using hview

end ProxySessionStore

/-- Whether the keys of a call fit the lists: none leads to a session of another server key, those
of a new list are distinct, and a branch is registered under the server key of its session. -/
def StoreOp.KeysFit (s : ProxySessionStore) : StoreOp → Prop
  | .insert session =>
    (s.serverToClients.get? session.serverKey = none → session.clientKeys.Nodup)
      ∧ ∀ key ∈ session.clientKeys, ∀ serverKey, s.serverKeyOf key = some serverKey →
        serverKey = session.serverKey
  | .registerForkBranch ref serverKey key _ _ =>
    ref < s.sessions.length →
      s.serverKey? ref = some serverKey
        ∧ ∀ other, s.serverKeyOf key = some other → other = serverKey
  | .addClientKey serverKey key =>
    s.getByServerKey serverKey ≠ none →
      ∀ other, s.serverKeyOf key = some other → other = serverKey
  | _ => True

namespace ProxySessionStore

variable {s s' : ProxySessionStore}

theorem clientKeysOf_link (s : ProxySessionStore) (serverKey key : TransactionKey)
    (ref : SessionRef) :
  (s.link serverKey key ref).clientKeysOf
    = Function.update s.clientKeysOf serverKey (pushNew (s.clientKeysOf serverKey) key)
  := by
  funext sk
  rw [clientKeysOf, link, get?_upsert]
  by_cases h : sk = serverKey
  · subst h
    cases hlist : s.serverToClients.get? sk <;> simp [clientKeysOf, hlist, pushNew]
  · simp [h, clientKeysOf]

theorem clientKeysOf_unlist (s : ProxySessionStore) (serverKey key sk : TransactionKey) :
  ((s.unlist serverKey key).get? sk).getD []
    = Function.update s.clientKeysOf serverKey ((s.clientKeysOf serverKey).filter (· ≠ key)) sk
  := by
  rw [unlist]
  by_cases hsk : sk = serverKey
  · subst hsk
    cases hlist : s.serverToClients.get? sk with
    | none => simp [clientKeysOf, hlist]
    | some keys =>
    dsimp only
    split
    · rename_i hempty
      rw [Function.update_self, clientKeysOf, hlist, get?_shiftRemove, if_pos rfl]
      exact (isEmpty_iff.mp hempty).symm
    · simp [get?_insert, clientKeysOf, hlist]
  · rw [Function.update_of_ne hsk, clientKeysOf]
    split
    · dsimp only
      split <;> simp [get?_shiftRemove, get?_insert, hsk]
    · rfl

theorem inverts_of_sameIndexes (h : SameIndexes s s')
    (hinv : Inverts s.serverKeyOf s.clientKeysOf) :
  Inverts s'.serverKeyOf s'.clientKeysOf
  := by
  have howners : s'.serverKeyOf = s.serverKeyOf := by
    funext key
    have hserver : s'.serverKey? = s.serverKey? := by
      funext ref
      rw [serverKey?, serverKey?, session?, session?, h.sessions]
    rw [serverKeyOf, serverKeyOf, h.byClientKey, hserver]
  have hlists : s'.clientKeysOf = s.clientKeysOf := by
    funext key
    rw [clientKeysOf, clientKeysOf, h.serverToClients]
  rwa [howners, hlists]

theorem getByServerKey_eq_some_iff :
  s.getByServerKey serverKey = some ref
    ↔ ∃ first, (s.clientKeysOf serverKey).head? = some first
      ∧ s.byClientKey.get? first = some ref
  := by
  rw [clientKeysOf, getByServerKey]
  cases s.serverToClients.get? serverKey <;> simp [Option.bind_eq_some_iff]

theorem serverKey?_of_getByServerKey (hinv : Inverts s.serverKeyOf s.clientKeysOf)
    (h : s.getByServerKey serverKey = some ref) :
  s.serverKey? ref = some serverKey
  := by
  obtain ⟨first, hfirst, hrow⟩ := getByServerKey_eq_some_iff.mp h
  have howner := (hinv.mem_iff serverKey first).mp (mem_of_mem_head? hfirst)
  rwa [serverKeyOf, hrow, Option.bind_some] at howner

theorem lt_of_getByServerKey [StdText] (hwf : s.WellFormed)
    (h : s.getByServerKey serverKey = some ref) :
  ref < s.sessions.length
  := by
  obtain ⟨first, -, hrow⟩ := getByServerKey_eq_some_iff.mp h
  exact hwf.rows first ref hrow

section

variable [StdText] (h : s.WellFormed) (hinv : Inverts s.serverKeyOf s.clientKeysOf)
include h hinv

theorem inverts_link_iff {f : ProxySession → ProxySession}
    (hkeeps : Keeps s ((s.write ref f).link serverKey key ref)) (hlt : ref < s.sessions.length) :
  Inverts ((s.write ref f).link serverKey key ref).serverKeyOf
      ((s.write ref f).link serverKey key ref).clientKeysOf
    ↔ s.serverKey? ref = some serverKey
      ∧ ∀ other, s.serverKeyOf key = some other → other = serverKey
  := by
  have howners := serverKeyOf_of_rows h hkeeps [key] (some ref)
    (by simp [link, write, get?_insert])
  have hview : (s.write ref f).clientKeysOf = s.clientKeysOf := rfl
  rw [howners, clientKeysOf_link, hview, hinv.add_iff (by simp [mem_pushNew]), Option.bind_some,
    hkeeps.serverKey ref hlt]
  simp [nodup_pushNew (hinv.nodup serverKey)]

theorem inverts_insert_iff (session : ProxySession) :
  Inverts (s.insert session).1.serverKeyOf (s.insert session).1.clientKeysOf
    ↔ (StoreOp.insert session).KeysFit s
  := by
  have hkeeps := keeps_step s (.insert session)
  have howners := serverKeyOf_of_rows h hkeeps session.clientKeys (some s.sessions.length)
    (get?_insertAll s.byClientKey session.clientKeys s.sessions.length)
  have hserver : (s.insert session).1.serverKey? s.sessions.length = some session.serverKey := by
    simp [insert, serverKey?, session?]
  have hlists : (s.insert session).1.clientKeysOf
      = Function.update s.clientKeysOf session.serverKey
        ((s.serverToClients.get? session.serverKey).elim session.clientKeys
          (session.clientKeys.foldl pushNew)) := by
    funext sk
    rw [clientKeysOf, insert, get?_upsert]
    by_cases hsk : sk = session.serverKey <;> simp [hsk, clientKeysOf]
  simp only [step, Option.bind_some, hserver] at howners
  rw [howners, hlists, hinv.add_iff]
  · cases hlist : s.serverToClients.get? session.serverKey with
    | none => simp [StoreOp.KeysFit, hlist]
    | some existing =>
    have hnodup : existing.Nodup := by
      simpa [clientKeysOf, hlist] using hinv.nodup session.serverKey
    simp [StoreOp.KeysFit, hlist, nodup_foldl_pushNew hnodup]
  · intro k
    cases hlist : s.serverToClients.get? session.serverKey <;>
      simp [clientKeysOf, hlist, mem_foldl_pushNew]

theorem inverts_removeByServerKey (serverKey : TransactionKey) :
  Inverts (s.removeByServerKey serverKey).serverKeyOf (s.removeByServerKey serverKey).clientKeysOf
  := by
  have howners := serverKeyOf_of_rows h (keeps_step s (.removeByServerKey serverKey)) _ none
    (get?_byClientKey_removeByServerKey s serverKey)
  simp only [step, Option.bind_none] at howners
  rw [howners, clientKeysOf_removeByServerKey]
  apply hinv.remove
  · intro k hk
    exact (hinv.mem_iff serverKey k).mp hk
  · simp

theorem inverts_removeClientKey (key : TransactionKey) :
  Inverts (s.removeClientKey key).1.serverKeyOf (s.removeClientKey key).1.clientKeysOf
  := by
  have howners := serverKeyOf_of_rows h (keeps_step s (.removeClientKey key)) [key] none
    (by simpa [step] using get?_byClientKey_removeClientKey s key)
  simp only [step, Option.bind_none] at howners
  cases hrow : s.byClientKey.get? key with
  | none => simpa [removeClientKey, hrow] using hinv
  | some ref =>
  have hlt := h.rows key ref hrow
  obtain ⟨serverKey, hserver⟩ : ∃ serverKey, s.serverKey? ref = some serverKey := by
    simp [serverKey?, session?, hlt]
  have hlists : (s.removeClientKey key).1.clientKeysOf
      = Function.update s.clientKeysOf serverKey
        ((s.clientKeysOf serverKey).filter (· ≠ key)) := by
    funext sk
    simp only [← clientKeysOf_unlist, removeClientKey, hrow, hserver]
    rfl
  rw [howners, hlists]
  apply hinv.remove
  · intro k hk
    rw [mem_singleton.mp hk, serverKeyOf, hrow]
    exact hserver
  · simp

theorem inverts_foldl_removeByServerKey (keys : List TransactionKey) :
  Inverts (keys.foldl removeByServerKey s).serverKeyOf
    (keys.foldl removeByServerKey s).clientKeysOf
  := by
  induction keys generalizing s with
  | nil => exact hinv
  | cons key keys ih =>
  exact ih (h.removeByServerKey key) (inverts_removeByServerKey h hinv key)

/-- A call keeps the lists in order if and only if its keys fit. -/
theorem inverts_step_iff (op : StoreOp) :
  Inverts (s.step op).serverKeyOf (s.step op).clientKeysOf ↔ op.KeysFit s
  := by
  have hkeeps := keeps_step s op
  -- a call that leaves the client keys and their lists alone
  have hquiet (hlinks : op.linksKeys = false) :
      Inverts (s.step op).serverKeyOf (s.step op).clientKeysOf := by
    obtain ⟨hrows, hlists⟩ := (indexes_step s op).1 hlinks
    have hview : (s.step op).clientKeysOf = s.clientKeysOf := by
      funext key
      rw [clientKeysOf, clientKeysOf, hlists]
    rwa [serverKeyOf_of_byClientKey_eq h hkeeps hrows, hview]
  cases op with
  | insert session => exact inverts_insert_iff h hinv session
  | insertForFork session =>
    rw [serverKeyOf_of_byClientKey_eq h hkeeps rfl]
    have hlists : (s.insertForFork session).1.clientKeysOf = s.clientKeysOf := by
      funext key
      rw [clientKeysOf, clientKeysOf, insertForFork, get?_orInsert]
      by_cases hkey : key = session.serverKey
      · subst hkey
        cases s.serverToClients.get? session.serverKey <;> simp
      · simp [hkey]
    rw [step, hlists]
    exact iff_of_true hinv trivial
  | registerForkBranch ref serverKey key branch branchIndex =>
    by_cases hlt : ref < s.sessions.length
    · simp only [step, if_pos hlt] at hkeeps ⊢
      rw [StoreOp.KeysFit, imp_iff_right hlt]
      exact inverts_link_iff h hinv hkeeps hlt
    · simp only [step, if_neg hlt]
      exact iff_of_true hinv fun hlt' => absurd hlt' hlt
  | addClientKey serverKey key =>
    cases hfirst : s.getByServerKey serverKey with
    | none => simpa [step, addClientKey, StoreOp.KeysFit, hfirst] using hinv
    | some ref =>
    simp only [step, addClientKey, hfirst] at hkeeps ⊢
    rw [inverts_link_iff h hinv hkeeps (lt_of_getByServerKey h hfirst)]
    simp [StoreOp.KeysFit, hfirst, serverKey?_of_getByServerKey hinv hfirst]
  | removeByServerKey serverKey =>
    exact iff_of_true (inverts_removeByServerKey h hinv serverKey) trivial
  | removeClientKey key => exact iff_of_true (inverts_removeClientKey h hinv key) trivial
  | sweep now ttl ackGrace pending =>
    have hswept := inverts_foldl_removeByServerKey h hinv (s.staleServerKeys now ttl pending)
    exact iff_of_true
      (inverts_of_sameIndexes (sameIndexes_sweepInner s now ttl ackGrace pending) hswept) trivial
  | _ => exact iff_of_true (hquiet rfl) trivial

end

/-! ### The dialog-key entries -/

variable {pending : TransactionKey → Bool} {now : Instant} {ttl : Duration}

theorem mem_staleServerKeys :
  serverKey ∈ s.staleServerKeys now ttl pending
    ↔ ∃ clientKey ref session, s.byClientKey.get? clientKey = some ref
      ∧ s.session? ref = some session ∧ session.isStale now ttl pending = true
      ∧ session.serverKey = serverKey
  := by
  simp only [staleServerKeys, mem_foldl_pushNew, not_mem_nil, false_or, mem_filterMap,
    Prod.exists, ← get?_eq_some_iff, Option.bind_eq_some_iff, Option.ite_none_right_eq_some,
    Option.some.injEq]
  constructor
  · rintro ⟨clientKey, ref, hrow, session, hsession, hstale, hkey⟩
    exact ⟨clientKey, ref, session, hrow, hsession, hstale, hkey⟩
  · rintro ⟨clientKey, ref, session, hrow, hsession, hstale, hkey⟩
    exact ⟨clientKey, ref, hrow, session, hsession, hstale, hkey⟩

theorem mem_staleDialogKeys {ackGrace : Duration} :
  dialogKey ∈ s.staleDialogKeys now ttl ackGrace pending
    ↔ ∃ ref session, s.byDialogKey.get? dialogKey = some ref ∧ s.session? ref = some session
      ∧ session.dialogIsStale now ttl ackGrace pending = true
  := by
  simp only [staleDialogKeys, mem_map, mem_filter, Prod.exists, exists_and_right,
    exists_eq_right, ← get?_eq_some_iff]
  constructor
  · rintro ⟨ref, hentry, hstale⟩
    split at hstale
    · rename_i session hsession
      exact ⟨ref, session, hentry, hsession, hstale⟩
    · cases hstale
  · rintro ⟨ref, session, hentry, hsession, hstale⟩
    refine ⟨ref, hentry, ?_⟩
    rw [hsession]
    exact hstale

variable [StdText]

theorem getByServerKey_removeByServerKey (hinv : Inverts s.serverKeyOf s.clientKeysOf)
    (hne : key ≠ serverKey) :
  (s.removeByServerKey serverKey).getByServerKey key = s.getByServerKey key
  := by
  apply Option.ext
  intro ref
  rw [getByServerKey_eq_some_iff, getByServerKey_eq_some_iff, clientKeysOf_removeByServerKey,
    Function.update_of_ne hne]
  apply exists_congr
  intro first
  apply and_congr_right
  intro hfirst
  have howner := (hinv.mem_iff key first).mp (mem_of_mem_head? hfirst)
  rw [get?_byClientKey_removeByServerKey, if_neg]
  rw [hinv.mem_iff, howner, Option.some.injEq]
  exact hne

theorem get?_byDialogKey_foldl_iff (h : s.WellFormed) (hinv : Inverts s.serverKeyOf s.clientKeysOf)
    (hkeys : keys.Nodup) :
  (keys.foldl removeByServerKey s).byDialogKey.get? dialogKey = some ref
    ↔ s.byDialogKey.get? dialogKey = some ref ∧ ∀ key ∈ keys, s.getByServerKey key ≠ some ref
  := by
  induction keys generalizing s with
  | nil => simp
  | cons key keys ih =>
  obtain ⟨hkey, hkeys⟩ := nodup_cons.mp hkeys
  rw [foldl_cons, ih (h.removeByServerKey key) (inverts_removeByServerKey h hinv key)
    hkeys, get?_byDialogKey_removeByServerKey, forall_mem_cons, and_assoc]
  apply and_congr_right
  intro hentry
  apply and_congr
  · simp [h.dialogs dialogKey ref hentry]
  · apply forall₂_congr
    intro k hk
    rw [getByServerKey_removeByServerKey hinv (ne_of_mem_of_not_mem hk hkey)]

theorem get?_byDialogKey_sweepInner (h : s.WellFormed) (hinv : Inverts s.serverKeyOf s.clientKeysOf)
    {ackGrace : Duration} :
  (s.sweepInner now ttl ackGrace pending).1.byDialogKey.get? dialogKey = some ref
    ↔ s.byDialogKey.get? dialogKey = some ref
      ∧ (∀ key ∈ s.staleServerKeys now ttl pending, s.getByServerKey key ≠ some ref)
      ∧ ∀ session, s.session? ref = some session →
        session.dialogIsStale now ttl ackGrace pending = false
  := by
  have hnodup : (s.staleServerKeys now ttl pending).Nodup := nodup_foldl_pushNew nodup_nil _
  have hsessions (r : SessionRef) :
      ((s.staleServerKeys now ttl pending).foldl removeByServerKey s).session? r
        = s.session? r := by
    rw [session?, sessions_foldl_removeByServerKey]
    rfl
  rw [(sameIndexes_sweepInner s now ttl ackGrace pending).byDialogKey]
  rw [get?_removeAll, ← and_assoc, ← get?_byDialogKey_foldl_iff h hinv hnodup]
  split
  · rename_i hstale
    obtain ⟨r, session, hentry, hsession, hstale⟩ := mem_staleDialogKeys.mp hstale
    rw [hsessions] at hsession
    simp only [reduceCtorEq, false_iff, not_and]
    intro hentry' hfresh
    rw [hentry, Option.some.injEq] at hentry'
    subst hentry'
    simp [hfresh session hsession] at hstale
  · rename_i hfresh
    simp only [iff_self_and]
    intro hentry session hsession
    rw [← hsessions] at hsession
    by_contra hstale
    exact hfresh (mem_staleDialogKeys.mpr
      ⟨ref, session, hentry, hsession, by simpa using hstale⟩)

end ProxySessionStore

end Siphon.Proxy
