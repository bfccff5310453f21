import Mathlib.Data.List.Chain
import Siphon.Transaction.Manager
import Siphon.Transaction.TimerSafety

/-!
# The transaction manager under concurrent calls

Over every interleaving of calls the creations and removals of a key alternate.
-/

namespace Siphon.Transaction

open TransactionManager

/-! ### Calls -/

/-- The manager, and the removals that calls under way still have to make. -/
structure Shared where
  manager : TransactionManager
  owed : List TransactionKey

/-- What a call of the manager does at one access to the map.  `ack`, `retransmit`, `serverEvent`
and `clientEvent` are what `handle_ack`, `handle_server_retransmit`, `process_server_event` and
`process_client_event` do while they hold an entry, and `reap` is the removal they may then owe. -/
inductive Call where
  | newServer (request : SipMessage) (transport : Transport)
  | newClient (request : SipMessage) (wire : Bytes) (transport : Transport)
  | ack (fresh : Text) (request : SipMessage)
  | retransmit (fresh : Text) (request : SipMessage)
  | serverEvent (fresh : Text) (key : TransactionKey) (event : ServerEvent)
  | clientEvent (now : Instant) (key : TransactionKey) (event : ClientEvent)
  | reap (key : TransactionKey)
  | cancelInviteClient (key : TransactionKey) (reasons : List Text)
  | armNoResponse (key : TransactionKey) (after : Duration)
  | disarmNoResponse (key : TransactionKey)
  | setClientHop (key : TransactionKey) (hop : BranchHop)
  | setClientConnection (key : TransactionKey) (id : ConnectionId)
  | restoreGivenUp (key : TransactionKey) (t : AnyTransaction)
  | remove (key : TransactionKey)

/-- What is seen of a key: a request is reported as new, a client transaction is put under it, or
what is under it is removed. -/
inductive Happening where
  | reportedNew (key : TransactionKey) (request : SipMessage)
  | clientCreated (key : TransactionKey)
  | removed (key : TransactionKey)
deriving DecidableEq

namespace Shared

variable (s : Shared)

/-- What a call does while it holds the entry of a key. -/
def update (key : TransactionKey) (f : AnyTransaction → Option (AnyTransaction × List Action)) :
    Shared :=
  match s.manager.update key f with
  | (m, none) => ⟨m, s.owed⟩
  | (m, some actions) => ⟨m, if .terminated ∈ actions then key :: s.owed else s.owed⟩

def remove (key : TransactionKey) : Shared × List Happening :=
  (⟨s.manager.remove key, s.owed⟩, if s.manager.contains key then [.removed key] else [])

def withManager (m : TransactionManager) : Shared := ⟨m, s.owed⟩

variable [StdText]

def step : Call → Shared × List Happening
  | .newServer request transport =>
    match s.manager.newServerTransaction request transport with
    | .ok (m, outcome) =>
      (s.withManager m, if outcome.isNew then [.reportedNew outcome.key request] else [])
    | .error _ => (s, [])
  | .newClient request wire transport =>
    match s.manager.newClientTransaction request wire transport with
    | .ok (m, key, _) => (s.withManager m, [.clientCreated key])
    | .error _ => (s, [])
  | .ack fresh request =>
    match keyFromMessage request with
    | .ok key => (s.update key (AnyTransaction.onAck fresh request), [])
    | .error _ => (s, [])
  | .retransmit fresh request =>
    match keyFromMessage request with
    | .ok key => (s.update key (AnyTransaction.onRetransmit fresh request), [])
    | .error _ => (s, [])
  | .serverEvent fresh key event => (s.update key (AnyTransaction.onServerEvent fresh event), [])
  | .clientEvent now key event => (s.update key (AnyTransaction.onClientEvent now event), [])
  | .reap key => if key ∈ s.owed then remove ⟨s.manager, s.owed.erase key⟩ key else (s, [])
  | .cancelInviteClient key reasons =>
    (s.withManager (s.manager.cancelInviteClient key reasons).1, [])
  | .armNoResponse key after => (s.withManager (s.manager.armNoResponse key after).1, [])
  | .disarmNoResponse key => (s.withManager (s.manager.disarmNoResponse key).1, [])
  | .setClientHop key hop => (s.withManager (s.manager.setClientHop key hop), [])
  | .setClientConnection key id => (s.withManager (s.manager.setClientConnection key id), [])
  | .restoreGivenUp key t =>
    (s.withManager (s.manager.restoreGivenUp key t),
      if s.manager.contains key then [] else [.clientCreated key])
  | .remove key => s.remove key

end Shared

open Shared (step)

/-! ### What a step can do -/

inductive Life where
  | created
  | removed
deriving DecidableEq

/-- What happens to a key: it is taken when a request is reported as new, or by a client
transaction, and freed by a removal. -/
def Happening.life (key : TransactionKey) : Happening → Option Life
  | .reportedNew k _ | .clientCreated k => if k = key then some .created else none
  | .removed k => if k = key then some .removed else none

def lifecycle (key : TransactionKey) (happenings : List Happening) : List Life :=
  happenings.filterMap (Happening.life key)

/-- Creations and removals alternate, and a creation comes first. -/
def Alternates (l : List Life) : Prop :=
  l.IsChain (· ≠ ·) ∧ l.head? ≠ some .removed

theorem Alternates.append {l : List Life} (h : Alternates l) {life : Life}
    (hlast : l.getLast? = some .created ↔ life = .removed) :
  Alternates (l ++ [life])
  := by
  constructor
  · apply h.1.append (List.isChain_singleton life)
    intro x hx y hy
    rw [List.head?_cons, Option.mem_some_iff] at hy
    subst hy
    rintro rfl
    cases x with
    | created => cases hlast.mp hx
    | removed =>
    have hcreated := hlast.mpr rfl
    rw [Option.mem_def.mp hx] at hcreated
    cases hcreated
  · cases l with
    | nil =>
      rintro hhead
      have hremoved : life = .removed := by simpa using hhead
      simpa using hlast.mpr hremoved
    | cons x l => simpa using h.2

theorem lifecycle_created {key : TransactionKey} {happening : Happening}
    (h : ∀ k, happening.life k = if key = k then some .created else none) (k : TransactionKey) :
  lifecycle k [happening] = if k = key then [.created] else []
  := by
  by_cases hk : key = k
  · simp [lifecycle, h, hk]
  · simp [lifecycle, h, hk, Ne.symm hk]

theorem lifecycle_remove (m : TransactionManager) (key k : TransactionKey) :
  lifecycle k (if m.contains key then [.removed key] else [])
    = if k = key ∧ m.contains key = true then [.removed] else []
  := by
  by_cases hk : key = k
  · subst hk
    split <;> simp [lifecycle, Happening.life, *]
  · split <;> simp [lifecycle, Happening.life, hk, Ne.symm hk]

@[simp] def IctState.isEnd : IctState → Bool
  | .terminated => true
  | _ => false

@[simp] def NictState.isEnd : NictState → Bool
  | .terminated => true
  | _ => false

/-- An INVITE server transaction also ends with a 2xx. -/
@[simp] def IstState.isEnd : IstState → Bool
  | .terminated | .accepted => true
  | _ => false

@[simp] def NistState.isEnd : NistState → Bool
  | .terminated => true
  | _ => false

namespace AnyTransaction

def ended : AnyTransaction → Bool
  | .ict t => t.state.isEnd
  | .nict t => t.state.isEnd
  | .ist t => t.state.isEnd
  | .nist t => t.state.isEnd

/-- One transaction becomes the other by an input of its machine. -/
inductive Becomes [StdText] : AnyTransaction → AnyTransaction → Prop where
  | ict (t : Ict) (i : IctInput) : Becomes (.ict t) (.ict (t.step i).1)
  | nict (t : Nict) (i : NictInput) : Becomes (.nict t) (.nict (t.step i).1)
  | ist (t : Ist) (fresh : Text) (e : IstEvent) : Becomes (.ist t) (.ist (t.process fresh e).1)
  | nist (t : Nist) (fresh : Text) (e : NistEvent) :
    Becomes (.nist t) (.nist (t.process fresh e).1)

end AnyTransaction

open AnyTransaction

inductive Effect [StdText] (s : Shared) (call : Call) : Shared → List Happening → Prop where
  /-- nothing is created, changed or removed -/
  | nothing {happenings : List Happening} (hlife : ∀ k, lifecycle k happenings = []) :
    Effect s call s happenings
  /-- a free key is taken -/
  | create {key : TransactionKey} {t : AnyTransaction} {happenings : List Happening}
    (hfree : s.manager.transactions.get? key = none)
    (hended : t.ended = false ∨ call = .restoreGivenUp key t)
    (hlife : ∀ k, lifecycle k happenings = if k = key then [.created] else []) :
    Effect s call ⟨s.manager.put key t, s.owed⟩ happenings
  /-- a transaction takes an input; a call that ends it owes its removal -/
  | change {key : TransactionKey} {t t' : AnyTransaction} {owes : Bool}
    (hget : s.manager.transactions.get? key = some t) (hbecomes : t.Becomes t')
    (howes : t'.ended = (t.ended || owes)) (honce : t.ended = true → owes = false) :
    Effect s call ⟨s.manager.put key t', if owes then key :: s.owed else s.owed⟩ []
  | remove {key : TransactionKey} {owed : List TransactionKey} {happenings : List Happening}
    (howed : (key ∈ s.owed ∧ owed = s.owed.erase key) ∨ (call = .remove key ∧ owed = s.owed))
    (hlife : ∀ k, lifecycle k happenings
      = if k = key ∧ s.manager.contains key = true then [.removed] else []) :
    Effect s call ⟨s.manager.remove key, owed⟩ happenings

/-! ### The end of a transaction -/

/-- An input ends a transaction exactly if `terminated` is among its actions, and once. -/
def EndsBy (before after : Bool) (actions : List Action) : Prop :=
  after = (before || decide (.terminated ∈ actions)) ∧ (before = true → .terminated ∉ actions)

theorem terminated_mem_labels (actions : List Action) :
  Label.terminated ∈ labels actions ↔ Action.terminated ∈ actions
  := by
  rw [labels, List.mem_filterMap]
  constructor
  · rintro ⟨a, ha, hlabel⟩
    cases a with
    | terminated => exact ha
    | _ => cases hlabel
  · intro h
    exact ⟨_, h, rfl⟩

theorem IctControl.terminated_step :
  ∀ (c : IctControl) (k : InputKind), ∀ o ∈ c.step k,
    o.1.state.isEnd = (c.state.isEnd || decide (Label.terminated ∈ o.2))
      ∧ (c.state.isEnd = true → Label.terminated ∉ o.2)
  := by
  decide +kernel

theorem IctControl.terminated_request :
  ∀ (c : IctControl) (k : InputKind), (∀ e, k ≠ .event e) → ∀ o ∈ c.step k, o.1.state = c.state
  := by
  decide +kernel

theorem Nict.endsBy_process (t : Nict) (e : NictEvent) :
  EndsBy t.state.isEnd (t.process e).1.state.isEnd (t.process e).2
  := by
  have hadvance : EndsBy t.state.isEnd (t.advance e).1.state.isEnd (t.advance e).2 := by
    have hcomplete (response : SipMessage) :
        EndsBy false (t.complete response).1.state.isEnd (t.complete response).2 := by
      rcases complete_cases t response with h | ⟨timerK, h⟩ <;> rw [h] <;> simp [EndsBy]
    unfold advance
    cases hs : t.state <;> cases e <;> first | exact hcomplete _ | simp [EndsBy, hs]
  rcases process_cases t e with ⟨heq, -⟩ | ⟨-, -, heq⟩ | heq <;> rw [heq]
  · exact hadvance
  · unfold giveUp
    cases t.state <;> simp [EndsBy]
  · simpa [EndsBy] using hadvance

section

variable [StdText]

theorem Ict.endsBy_process (now : Instant) (t : Ict) (e : IctEvent) :
  EndsBy t.state.isEnd (process now t e).1.state.isEnd (process now t e).2
  := by
  obtain ⟨hstate, honce⟩ :=
    IctControl.terminated_step t.control (.event e.kind) _ (outcome_process now t e)
  constructor
  · rw [← decide_eq_decide.mpr (terminated_mem_labels (process now t e).2)]
    exact hstate
  · intro hterminated
    rw [← terminated_mem_labels]
    exact honce hterminated

variable (fresh : Text)

theorem Ist.endsBy_process (t : Ist) (e : IstEvent) :
  EndsBy t.state.isEnd (t.process fresh e).1.state.isEnd (t.process fresh e).2
  := by
  have hresend : Action.terminated ∉ t.resend := by
    unfold resend
    cases t.lastResponse <;> simp
  unfold process
  cases hs : t.state with
  | proceeding =>
    cases e
    case tuNon2xxFinal response => cases ht : t.transport <;> simp [EndsBy]
    all_goals simp [EndsBy, hs, hresend]
  | completed =>
    cases e
    case timerG => cases hr : t.lastResponse <;> simp [EndsBy, hs]
    case ackReceived request =>
      cases ht : t.transport
      all_goals
        dsimp only
        split <;> simp [EndsBy]
    all_goals simp [EndsBy, hs, hresend]
  | confirmed | terminated | accepted => cases e <;> simp [EndsBy, hs]

theorem Nist.endsBy_process (t : Nist) (e : NistEvent) :
  EndsBy t.state.isEnd (t.process fresh e).1.state.isEnd (t.process fresh e).2
  := by
  have hresend : Action.terminated ∉ t.resend := by
    unfold resend
    cases t.lastResponse <;> simp
  have hstop : Action.terminated ∉ t.stopTrying100 := by
    unfold stopTrying100
    split <;> simp
  have hcomplete (response : SipMessage) :
      EndsBy false (t.complete fresh response).1.state.isEnd
        (t.complete fresh response).2 := by
    rcases complete_cases fresh t response with ⟨hstate, sent, h⟩ | ⟨hstate, sent, timerJ, h⟩ <;>
      rw [h, hstate] <;> simp [EndsBy]
  unfold process
  cases hs : t.state with
  | trying =>
    cases e
    case tuFinal response =>
      obtain ⟨hstate, -⟩ := hcomplete response
      simpa [EndsBy, hstop] using hstate
    all_goals simp [EndsBy, hs, hstop, provision]
  | proceeding =>
    cases e
    case tuFinal response => exact hcomplete response
    all_goals simp [EndsBy, hs, hresend, provision]
  | completed | terminated => cases e <;> simp [EndsBy, hs, hresend]

/-! ### Every step has one of the effects -/

/-- What a call does to a transaction is an input of its machine. -/
def Lawful (f : AnyTransaction → Option (AnyTransaction × List Action)) : Prop :=
  ∀ t t' actions, f t = some (t', actions) → t.Becomes t' ∧ EndsBy t.ended t'.ended actions

theorem lawful_onServerEvent (event : ServerEvent) :
  Lawful (onServerEvent fresh event)
  := by
  intro t t' actions h
  unfold onServerEvent at h
  split at h
  · cases h
    exact ⟨.ist _ _ _, Ist.endsBy_process _ _ _⟩
  · cases h
    exact ⟨.nist _ _ _, Nist.endsBy_process _ _ _⟩
  · cases h

theorem lawful_onAck (request : SipMessage) :
  Lawful (onAck fresh request)
  := by
  intro t t' actions h
  unfold onAck at h
  split at h
  · cases h
    exact ⟨.ist _ _ _, Ist.endsBy_process _ _ _⟩
  · cases h

theorem lawful_onRetransmit (request : SipMessage) :
  Lawful (onRetransmit fresh request)
  := by
  intro t t' actions h
  unfold onRetransmit at h
  split at h
  · cases h
    exact ⟨.ist _ _ _, Ist.endsBy_process _ _ _⟩
  · cases h
    exact ⟨.nist _ _ _, Nist.endsBy_process _ _ _⟩
  · cases h

theorem lawful_onClientEvent (now : Instant) (event : ClientEvent) :
  Lawful (onClientEvent now event)
  := by
  intro t t' actions h
  unfold onClientEvent at h
  split at h
  · rename_i t e
    cases h
    exact ⟨.ict t (.event now e), Ict.endsBy_process _ _ _⟩
  · rename_i t e
    cases h
    exact ⟨.nict t (.event e), Nict.endsBy_process _ _⟩
  · cases h

variable {s : Shared} {call : Call} {key : TransactionKey}

theorem effect_update {f : AnyTransaction → Option (AnyTransaction × List Action)} (hf : Lawful f) :
  Effect s call (s.update key f) []
  := by
  unfold Shared.update update
  cases hget : s.manager.transactions.get? key with
  | none => exact .nothing fun _ => rfl
  | some t =>
  dsimp only
  cases ht : f t with
  | none => exact .nothing fun _ => rfl
  | some r =>
  obtain ⟨t', actions⟩ := r
  obtain ⟨hbecomes, hends, honce⟩ := hf t t' actions ht
  have heffect : Effect s call _ [] :=
    .change hget hbecomes hends fun h => decide_eq_false (honce h)
  simpa using heffect

theorem effect_request {t : Ict} {i : IctInput}
    (hget : s.manager.transactions.get? key = some (.ict t)) (hi : ∀ e, i.kind ≠ .event e) :
  Effect s call (s.withManager (s.manager.put key (.ict (t.step i).1))) []
  := by
  have hstate : (t.step i).1.state = t.state :=
    IctControl.terminated_request t.control i.kind hi _ (t.outcome_step i)
  have hended : (ict (t.step i).1).ended = ((ict t).ended || false) := by
    simp [ended, hstate]
  exact Effect.change hget (.ict t i) hended fun _ => rfl

/-- A request that is no ACK is not new if its key is taken, and takes its key otherwise. -/
theorem newServerTransaction_cases {m m' : TransactionManager} {request : SipMessage}
    {transport : Transport} {o : ServerTransactionOutcome}
    (h : m.newServerTransaction request transport = .ok (m', o))
    (hack : request.method ≠ some .ack) :
  (m' = m ∧ o.isNew = false)
    ∨ ∃ t, m.transactions.get? o.key = none ∧ t.ended = false ∧ m' = m.put o.key t
      ∧ o.isNew = true
  := by
  -- one argument for the two kinds of server transactions
  have hcreate (key : TransactionKey) (t : AnyTransaction) (actions : List Action)
      (ht : t.ended = false)
      (h : (if m.contains key then (m, ⟨key, [], false⟩)
        else (m.put key t, (⟨key, actions, true⟩ : ServerTransactionOutcome))) = (m', o)) :
      (m' = m ∧ o.isNew = false)
        ∨ ∃ t, m.transactions.get? o.key = none ∧ t.ended = false ∧ m' = m.put o.key t
          ∧ o.isNew = true := by
    split at h
    · cases h
      exact .inl ⟨rfl, rfl⟩
    · rename_i hfree
      cases h
      exact .inr ⟨t, Option.not_isSome_iff_eq_none.mp hfree, ht, rfl, rfl⟩
  unfold newServerTransaction at h
  cases hkey : keyFromMessage request with
  | error e =>
    rw [hkey] at h
    cases h
  | ok key =>
    rw [hkey] at h
    cases hm : request.method with
    | none =>
      rw [hm] at h
      cases h
    | some method =>
      rw [hm] at h
      cases method with
      | ack => exact absurd hm hack
      | _ => exact hcreate key _ _ rfl (Except.ok.inj h)

theorem newClientTransaction_cases {m m' : TransactionManager} {request : SipMessage} {wire : Bytes}
    {transport : Transport} {actions : List Action}
    (h : m.newClientTransaction request wire transport = .ok (m', key, actions)) :
  ∃ t, m.transactions.get? key = none ∧ t.ended = false ∧ m' = m.put key t
  := by
  have hcreate (k : TransactionKey) (t : AnyTransaction) (as : List Action) (ht : t.ended = false)
      (h : (if m.contains k then Except.error (ManagerError.exists k)
        else .ok (m.put k t, k, as)) = .ok (m', key, actions)) :
      ∃ t, m.transactions.get? key = none ∧ t.ended = false ∧ m' = m.put key t := by
    split at h
    · cases h
    · rename_i hfree
      cases h
      exact ⟨t, Option.not_isSome_iff_eq_none.mp hfree, ht, rfl⟩
  unfold newClientTransaction at h
  cases hkey : keyFromMessage request with
  | error e =>
    rw [hkey] at h
    cases h
  | ok k =>
    rw [hkey] at h
    split at h
    · exact hcreate k _ _ rfl h
    · cases h
    · exact hcreate k _ _ rfl h

/-- No ACK is given to `newServerTransaction`; the dispatcher has `handle_ack` for them. -/
def Call.NoAck : Call → Prop
  | .newServer request _ => request.method ≠ some .ack
  | _ => True

theorem effect_newServer (s : Shared) {request : SipMessage} {transport : Transport}
    (hack : Call.NoAck (.newServer request transport)) :
  Effect s (.newServer request transport) (s.step (.newServer request transport)).1
    (s.step (.newServer request transport)).2
  := by
  simp only [step]
  cases h : s.manager.newServerTransaction request transport with
  | error e => exact .nothing fun _ => rfl
  | ok r =>
  obtain ⟨m, o⟩ := r
  dsimp only
  rcases newServerTransaction_cases h hack with ⟨rfl, hold⟩ | ⟨t, hfree, ht, rfl, hnew⟩
  · rw [if_neg (by simp [hold])]
    exact .nothing fun _ => rfl
  · rw [if_pos hnew]
    exact .create hfree (.inl ht) (lifecycle_created fun _ => rfl)

theorem effect_armNoResponse (s : Shared) (key : TransactionKey) (after : Duration) :
  Effect s (.armNoResponse key after) (s.withManager (s.manager.armNoResponse key after).1) []
  := by
  unfold armNoResponse
  split
  · rename_i t hget
    exact effect_request (i := .armNoResponse after) hget fun e => by simp [IctInput.kind]
  · rename_i t hget
    have hended : (nict (t.armNoResponse after).1).ended
        = ((nict t).ended || false) := by
      unfold Nict.armNoResponse
      split <;> simp [ended]
    exact Effect.change hget (.nict t (.armNoResponse after)) hended fun _ => rfl
  · exact .nothing fun _ => rfl

/-- Every step of a call has one of the effects. -/
theorem effect_step (s : Shared) {call : Call} (hack : call.NoAck) :
  Effect s call (s.step call).1 (s.step call).2
  := by
  cases call with
  | newServer request transport => exact effect_newServer s hack
  | newClient request wire transport =>
    simp only [step]
    cases h : s.manager.newClientTransaction request wire transport with
    | error e => exact .nothing fun _ => rfl
    | ok r =>
    obtain ⟨m, key, actions⟩ := r
    obtain ⟨t, hfree, ht, rfl⟩ := newClientTransaction_cases h
    exact .create hfree (.inl ht) (lifecycle_created fun _ => rfl)
  | ack fresh request =>
    simp only [step]
    split
    · exact effect_update (lawful_onAck fresh request)
    · exact .nothing fun _ => rfl
  | retransmit fresh request =>
    simp only [step]
    split
    · exact effect_update (lawful_onRetransmit fresh request)
    · exact .nothing fun _ => rfl
  | serverEvent fresh key event => exact effect_update (lawful_onServerEvent fresh event)
  | clientEvent now key event => exact effect_update (lawful_onClientEvent now event)
  | reap key =>
    simp only [step]
    split
    · rename_i howed
      exact .remove (.inl ⟨howed, rfl⟩) (lifecycle_remove s.manager key)
    · exact .nothing fun _ => rfl
  | cancelInviteClient key reasons =>
    simp only [step, cancelInviteClient]
    split
    · exact effect_request (i := .requestCancel reasons) ‹_› fun e => by simp [IctInput.kind]
    · exact .nothing fun _ => rfl
  | armNoResponse key after => exact effect_armNoResponse s key after
  | disarmNoResponse key =>
    simp only [step, disarmNoResponse]
    split
    · exact effect_request (i := .disarmNoResponse) ‹_› fun e => by simp [IctInput.kind]
    · exact .nothing fun _ => rfl
  | setClientHop key hop =>
    simp only [step, setClientHop]
    split
    · exact effect_request (i := .setHop hop) ‹_› fun e => by simp [IctInput.kind]
    · exact .nothing fun _ => rfl
  | setClientConnection key id =>
    simp only [step, setClientConnection]
    split
    · exact effect_request (i := .setConnection id) ‹_› fun e => by simp [IctInput.kind]
    · exact .nothing fun _ => rfl
  | restoreGivenUp key t =>
    simp only [step, restoreGivenUp]
    split
    · exact .nothing fun _ => rfl
    · rename_i hfree
      exact .create (Option.not_isSome_iff_eq_none.mp hfree) (.inr rfl)
        (lifecycle_created fun _ => rfl)
  | remove key => exact .remove (.inr ⟨rfl, rfl⟩) (lifecycle_remove s.manager key)

/-! ### Runs -/

variable {happenings : List Happening}

/-- An effect creates a free key, removes a taken one or leaves it. -/
theorem Effect.life {s' : Shared} (h : Effect s call s' happenings) (key : TransactionKey) :
  (lifecycle key happenings = [] ∧ s'.manager.contains key = s.manager.contains key)
    ∨ (lifecycle key happenings = [.created] ∧ s.manager.contains key = false
      ∧ s'.manager.contains key = true)
    ∨ (lifecycle key happenings = [.removed] ∧ s.manager.contains key = true
      ∧ s'.manager.contains key = false)
  := by
  cases h with
  | nothing hlife => exact .inl ⟨hlife key, rfl⟩
  | create hfree hended hlife =>
    rename_i k t
    by_cases hk : key = k
    · subst hk
      exact .inr (.inl ⟨by simp [hlife], by simp [contains, hfree],
        by simp [contains]⟩)
    · exact .inl ⟨by simp [hlife, hk], by simp [contains, hk]⟩
  | change hget hbecomes howes honce =>
    rename_i k t t' owes
    by_cases hk : key = k
    · subst hk
      exact .inl ⟨rfl, by simp [contains, hget]⟩
    · exact .inl ⟨rfl, by simp [contains, hk]⟩
  | remove howed hlife =>
    rename_i k owed
    by_cases hk : key = k
    · subst hk
      cases hc : s.manager.contains key with
      | true => exact .inr (.inr ⟨by simp [hlife, hc], rfl, by simp [contains]⟩)
      | false => exact .inl ⟨by simp [hlife, hc], by simp [contains]⟩
    · exact .inl ⟨by simp [hlife, hk], by simp [contains, hk]⟩

/-- No effect replaces a transaction. -/
theorem Effect.becomes {s' : Shared} (h : Effect s call s' happenings) {t t' : AnyTransaction}
    (ht : s.manager.transactions.get? key = some t)
    (ht' : s'.manager.transactions.get? key = some t') :
  t' = t ∨ t.Becomes t'
  := by
  cases h with
  | nothing hlife =>
    rw [ht] at ht'
    exact .inl (Option.some.inj ht').symm
  | create hfree hended hlife =>
    rw [get?_put] at ht'
    split at ht'
    · rename_i hk
      rw [hk, hfree] at ht
      cases ht
    · rw [ht] at ht'
      exact .inl (Option.some.inj ht').symm
  | change hget hbecomes howes honce =>
    rw [get?_put] at ht'
    split at ht'
    · rename_i hk
      rw [hk, hget] at ht
      cases ht
      cases ht'
      exact .inr hbecomes
    · rw [ht] at ht'
      exact .inl (Option.some.inj ht').symm
  | remove howed hlife =>
    rw [get?_remove] at ht'
    split at ht'
    · cases ht'
    · rw [ht] at ht'
      exact .inl (Option.some.inj ht').symm

def callMachine : Machine Shared Call Happening where
  step s call := s.step call

theorem effect_call (s : Shared) {call : Call} (hack : call.NoAck) :
  Effect s call (callMachine.step s call).1 (callMachine.step s call).2
  := effect_step s hack

variable (timers : TimerConfig)

/-- No call is under way and there is no transaction. -/
def Shared.start : Shared :=
  ⟨new timers, []⟩

/-- All that happens to a key over a run. -/
def history (calls : List Call) (key : TransactionKey) : List Life :=
  lifecycle key ((callMachine.trace (Shared.start timers) calls).flatMap Prod.snd)

theorem history_append (calls : List Call) (call : Call)
    (key : TransactionKey) :
  history timers (calls ++ [call]) key
    = history timers calls key
      ++ lifecycle key (callMachine.step (callMachine.run (Shared.start timers) calls) call).2
  := by
  simp [history, lifecycle, Machine.trace_append]

/-- Over a run, creations and removals alternate, and a key is taken after a creation. -/
theorem alternates_history {calls : List Call}
    (hack : ∀ call ∈ calls, call.NoAck) (key : TransactionKey) :
  Alternates (history timers calls key)
    ∧ ((callMachine.run (Shared.start timers) calls).manager.contains key = true
      ↔ (history timers calls key).getLast? = some .created)
  := by
  induction calls using List.reverseRecOn with
  | nil =>
    have hnil : history timers [] key = [] := rfl
    rw [hnil]
    refine ⟨⟨List.isChain_nil, by simp⟩, ?_⟩
    simp [Shared.start, new, contains]
  | append_singleton calls call ih =>
    obtain ⟨halternates, hlast⟩ := ih fun call hmem => hack call (List.mem_append_left _ hmem)
    rw [history_append, Machine.run_append, Machine.run_cons, Machine.run_nil]
    generalize history timers calls key = l at halternates hlast ⊢
    rcases (effect_call (callMachine.run (Shared.start timers) calls)
        (hack call (by simp))).life key with
      ⟨hlife, hcontains⟩ | ⟨hlife, hfree, hcontains⟩ | ⟨hlife, htaken, hcontains⟩
    · rw [hlife, List.append_nil, hcontains]
      exact ⟨halternates, hlast⟩
    · rw [hlife, hcontains]
      refine ⟨halternates.append ?_, by simp⟩
      rw [← hlast, hfree]
      simp
    · rw [hlife, hcontains]
      refine ⟨halternates.append ?_, by simp⟩
      rw [← hlast, htaken]
      simp

/-! ### The removals that are owed -/

/-- A removal that is not owed is of a transaction that no call has ended, and what is put back has
not ended. -/
def Call.Allowed (s : Shared) : Call → Prop
  | .remove key => key ∉ s.owed
  | .restoreGivenUp _ t => t.ended = false
  | _ => True

/-- A run in which every call is allowed. -/
def Orderly (s : Shared) : List Call → Prop
  | [] => True
  | call :: calls => call.Allowed s ∧ Orderly (callMachine.step s call).1 calls

/-- A removal is owed, once, for each transaction that has ended, and for no other key. -/
structure Shared.Owing (s : Shared) : Prop where
  nodup : s.owed.Nodup
  ended : ∀ key t, s.manager.transactions.get? key = some t → (t.ended = true ↔ key ∈ s.owed)
  taken : ∀ key ∈ s.owed, s.manager.contains key = true

/-- An effect of an allowed call keeps the removals that are owed in step with the ends. -/
theorem Effect.owing {s' : Shared} (h : Effect s call s' happenings) (hallowed : call.Allowed s)
    (howing : s.Owing) :
  s'.Owing
  := by
  cases h with
  | nothing hlife => exact howing
  | create hfree hended hlife =>
    rename_i key t
    have hfalse : t.ended = false := by
      rcases hended with hended | rfl
      · exact hended
      · exact hallowed
    have hnot : key ∉ s.owed := by
      intro hmem
      have htaken := howing.taken key hmem
      rw [contains, hfree] at htaken
      cases htaken
    refine ⟨howing.nodup, fun k u hu => ?_, fun k hk => ?_⟩
    · rw [get?_put] at hu
      split at hu
      · rename_i hk
        cases hu
        simp [hfalse, hk, hnot]
      · exact howing.ended k u hu
    · have htaken := howing.taken k hk
      rw [contains] at htaken ⊢
      rw [get?_put]
      split
      · rfl
      · exact htaken
  | change hget hbecomes howes honce =>
    rename_i key t t' owes
    have hended := howing.ended key t hget
    refine ⟨?_, fun k u hu => ?_, fun k hk => ?_⟩
    · split
      · rename_i howes'
        refine List.nodup_cons.mpr ⟨fun hmem => ?_, howing.nodup⟩
        rw [honce (hended.mpr hmem)] at howes'
        cases howes'
      · exact howing.nodup
    · rw [get?_put] at hu
      split at hu
      · rename_i hk
        subst hk
        cases hu
        rw [howes]
        cases owes <;> simp [hended]
      · rename_i hk
        rw [howing.ended k u hu]
        cases owes <;> simp [hk]
    · rw [contains, get?_put]
      split
      · rfl
      rename_i hne
      have hmem : k ∈ s.owed := by
        cases owes <;> simpa [hne] using hk
      exact howing.taken k hmem
  | remove howed hlife =>
    rename_i key owed
    have hmem (k : TransactionKey) : k ∈ owed ↔ k ∈ s.owed ∧ k ≠ key := by
      rcases howed with ⟨-, rfl⟩ | ⟨rfl, rfl⟩
      · rw [howing.nodup.mem_erase_iff, and_comm]
      · exact ⟨fun hk => ⟨hk, fun heq => hallowed (heq ▸ hk)⟩, And.left⟩
    refine ⟨?_, fun k u hu => ?_, fun k hk => ?_⟩
    · rcases howed with ⟨-, rfl⟩ | ⟨-, rfl⟩
      · exact howing.nodup.erase key
      · exact howing.nodup
    · rw [get?_remove] at hu
      split at hu
      · cases hu
      · rename_i hne
        rw [howing.ended k u hu, hmem]
        simp [hne]
    · obtain ⟨hk, hne⟩ := (hmem k).mp hk
      rw [contains, get?_remove, if_neg hne]
      exact howing.taken k hk

/-- An orderly run owes the removal of just what has ended. -/
theorem owing_run (h : s.Owing) {calls : List Call} (hack : ∀ call ∈ calls, call.NoAck)
    (horderly : Orderly s calls) :
  (callMachine.run s calls).Owing
  := by
  induction calls generalizing s with
  | nil => exact h
  | cons call calls ih =>
    rw [List.forall_mem_cons] at hack
    exact ih ((effect_call s hack.1).owing horderly.1 h) hack.2 horderly.2

/-- Over every interleaving of calls that gives no ACK to `newServerTransaction`: the creations and
removals of a key alternate, so that between two removals exactly one request is reported as new
unless a client transaction takes the key; a key is taken exactly from a creation to the next
removal; a transaction is never replaced by another; and if no call removes what another is about
to remove, a transaction that is there has ended exactly if the call that ended it still owes its
removal. -/
theorem created_once (timers : TimerConfig) (calls : List Call)
    (hack : ∀ call ∈ calls, call.NoAck) (key : TransactionKey) :
  let s := callMachine.run (Shared.start timers) calls
  Alternates (history timers calls key)
    ∧ (s.manager.contains key = true ↔ (history timers calls key).getLast? = some .created)
    ∧ (∀ call t t', call.NoAck → s.manager.transactions.get? key = some t →
      (callMachine.step s call).1.manager.transactions.get? key = some t' →
        t' = t ∨ t.Becomes t')
    ∧ (Orderly (Shared.start timers) calls →
      ∀ t, s.manager.transactions.get? key = some t → (t.ended = true ↔ key ∈ s.owed))
  := by
  intro s
  obtain ⟨halternates, hlast⟩ := alternates_history timers hack key
  refine ⟨halternates, hlast,
    fun call t t' hcall ht ht' => (effect_call s hcall).becomes ht ht', ?_⟩
  intro horderly
  have hstart : (Shared.start timers).Owing := by
    refine ⟨List.nodup_nil, fun key t h => ?_, fun key h => by cases h⟩
    cases h
  exact (owing_run hstart hack horderly).ended key

end

def requestOf (method : Method) : SipMessage :=
  ⟨.request ⟨method, ⟨.sip, none, "b.example".toList, none, [], none⟩, .sip20⟩,
    SipHeaders.new.add "Via".toList "SIP/2.0/UDP a.example;branch=z9hG4bK1".toList, []⟩

def keyOf (method : Method) : TransactionKey :=
  ⟨"z9hG4bK1".toList, method, "a.example".toList⟩

def optionsOk : SipMessage :=
  ⟨.response ⟨.sip20, 200, "OK".toList, false⟩, (requestOf .options).headers, []⟩

/-- An OPTIONS is answered, and Timer J fires. -/
def answeredOptions : List Call :=
  [.newServer (requestOf .options) .udp,
    .serverEvent [] (keyOf .options) (.nist (.tuFinal optionsOk)),
    .serverEvent [] (keyOf .options) (.nist .timerJ)]

/-- Its transaction has ended, and its removal is owed. -/
theorem answeredOptions_owed :
  let s := (@callMachine StdText.ascii).run (Shared.start TimerConfig.default) answeredOptions
  Alternates (@history StdText.ascii TimerConfig.default answeredOptions (keyOf .options))
    ∧ @Orderly StdText.ascii (Shared.start TimerConfig.default) answeredOptions
    ∧ ∃ t ∈ s.manager.transactions.get? (keyOf .options),
      t.ended = true ∧ keyOf .options ∈ s.owed
  := by
  let _ := StdText.ascii
  intro s
  obtain ⟨halternates, htaken, -, howed⟩ := created_once TimerConfig.default answeredOptions
    (by simp [answeredOptions, Call.NoAck, requestOf, SipMessage.method]) (keyOf .options)
  have horderly : Orderly (Shared.start TimerConfig.default) answeredOptions :=
    ⟨trivial, trivial, trivial, trivial⟩
  obtain ⟨t, ht⟩ := Option.isSome_iff_exists.mp (htaken.mpr (by decide +kernel))
  have hmem : keyOf .options ∈ s.owed := by decide +kernel
  exact ⟨halternates, horderly, t, ht, (howed horderly t ht).mpr hmem, hmem⟩

/-- An OPTIONS is sent by a client transaction, comes back, and is answered. -/
def spiralledOptions : List Call :=
  [.newClient (requestOf .options) [] .reliable, .newServer (requestOf .options) .udp,
    .clientEvent 0 (keyOf .options) (.nict (.finalResponse optionsOk))]

/-- An INVITE that was given up on times out. -/
def givenUpInvite : List Call :=
  [.newClient (requestOf .invite) [] .udp, .armNoResponse (keyOf .invite) 1,
    .clientEvent 1 (keyOf .invite) (.ict .noResponse),
    .clientEvent 32 (keyOf .invite) (.ict .timerB)]

/-- A key stays in the map when its transaction has ended, until it is removed.  Of a client
transaction that is removed no request was reported as new; a request that comes when another call
has removed it before the one that ended it is removed by that one, while it is live; and one that
was set aside when it ended is put back for good. -/
theorem ended_before_removed :
  let run := (@callMachine StdText.ascii).run (Shared.start TimerConfig.default)
  ((run answeredOptions).manager.transactions.get? (keyOf .options)).any ended = true
    ∧ (@callMachine StdText.ascii).outputs (Shared.start TimerConfig.default)
        (spiralledOptions ++ [.reap (keyOf .options)])
      = [.clientCreated (keyOf .options), .removed (keyOf .options)]
    ∧ (let s := run (spiralledOptions ++
        [.remove (keyOf .options), .newServer (requestOf .options) .udp])
      (s.manager.transactions.get? (keyOf .options)).any ended = false
        ∧ s.manager.contains (keyOf .options) = true ∧ keyOf .options ∈ s.owed)
    ∧ ∃ t ∈ (run givenUpInvite).manager.transactions.get? (keyOf .invite),
      let s := run (givenUpInvite ++
        [.remove (keyOf .invite), .reap (keyOf .invite), .restoreGivenUp (keyOf .invite) t])
      (match t with | .ict t => t.gaveUp | _ => false) = true
        ∧ (s.manager.transactions.get? (keyOf .invite)).any ended = true
        ∧ keyOf .invite ∉ s.owed
  := by
  decide +kernel

end Siphon.Transaction
