import Siphon.Library.Threads

/-!
# Presence subscriptions and their write-through

A subscription lives in an entry of the store.  Calls on one id run interleaved: a change with its
draw and snapshot is one access, an enqueue another one.  Times are in nanoseconds.
-/

namespace Siphon.Presence

inductive SubscriptionState where
  | init
  | active
  | pending
  | terminated
deriving DecidableEq

def SubscriptionState.display : SubscriptionState → Text
  | .init => "init".toList
  | .active => "active".toList
  | .pending => "pending".toList
  | .terminated => "terminated".toList

structure Subscription where
  id : Text
  subscriber : Text
  resource : Text
  event : Text
  state : SubscriptionState
  expires : ℕ
  createdAt : ℕ
  dialogId : Option Text
  accept : List Text
  callId : Option Text
  fromTag : Option Text
  toTag : Option Text
  routeSet : List Text
  localCseq : UInt32
  localUri : Option Text
  remoteUri : Option Text
  generation : ℕ
  nextVersion : UInt32

/-- The clocks at an access, and how many numbers and generations other ids drew since the last. -/
structure Moment where
  now : ℕ
  unixNow : ℕ
  skippedSequences : ℕ := 0
  skippedGenerations : ℕ := 0

structure NotifyDialogState where
  subscriber : Text
  localUri : Text
  remoteUri : Text
  event : Text
  callId : Text
  fromTag : Text
  toTag : Text
  routeSet : List Text
  cseq : UInt32
  generation : ℕ

namespace Subscription

variable (subscription : Subscription)

def notifyFromUri : Text :=
  subscription.localUri.getD subscription.resource

def notifyToUri : Text :=
  subscription.remoteUri.getD subscription.resource

def isExpired (now : ℕ) : Bool :=
  subscription.expires ≤ now - subscription.createdAt

def terminate : Subscription :=
  { subscription with state := .terminated }

/-- The CSeq wraps around in a release build. -/
def nextCseq : Subscription :=
  { subscription with localCseq := subscription.localCseq + 1 }

/-- The next version, which stays at the highest one. -/
def takeVersion : Subscription :=
  { subscription with
    nextVersion := if subscription.nextVersion = 0xFFFFFFFF then 0xFFFFFFFF
      else subscription.nextVersion + 1 }

/-- A terminated subscription is left as it is. -/
def refresh (expires now generation : ℕ) : Subscription :=
  if subscription.state = .terminated then subscription
  else { subscription with expires, createdAt := now, generation }

/-- What a NOTIFY with the next CSeq is built from. -/
def notifyDialog (callId : Text) : NotifyDialogState where
  subscriber := subscription.subscriber
  localUri := subscription.notifyFromUri
  remoteUri := subscription.notifyToUri
  event := subscription.event
  callId := callId
  fromTag := subscription.fromTag.getD []
  toTag := subscription.toTag.getD []
  routeSet := subscription.routeSet
  cseq := subscription.nextCseq.localCseq
  generation := subscription.generation

end Subscription

/-! ### What is stored -/

structure StoredSubscription where
  id : Text
  subscriber : Text
  resource : Text
  event : Text
  state : Text
  expiresAtUnix : ℕ
  dialogId : Option Text
  accept : List Text
  callId : Option Text
  fromTag : Option Text
  toTag : Option Text
  routeSet : List Text
  localCseq : UInt32
  localUri : Option Text
  remoteUri : Option Text
  nextVersion : UInt32
deriving DecidableEq

/-- The stored form of a subscription as of now. -/
def StoredSubscription.of (moment : Moment) (subscription : Subscription) : StoredSubscription where
  id := subscription.id
  subscriber := subscription.subscriber
  resource := subscription.resource
  event := subscription.event
  state := subscription.state.display
  expiresAtUnix := min (2 ^ 64 - 1)
    (moment.unixNow + (subscription.expires - (moment.now - subscription.createdAt)) / 10 ^ 9)
  dialogId := subscription.dialogId
  accept := subscription.accept
  callId := subscription.callId
  fromTag := subscription.fromTag
  toTag := subscription.toTag
  routeSet := subscription.routeSet
  localCseq := subscription.localCseq
  localUri := subscription.localUri
  remoteUri := subscription.remoteUri
  nextVersion := subscription.nextVersion

inductive PresenceWrite where
  | save (stored : StoredSubscription)
  | remove
deriving DecidableEq

/-! ### Calls on one id -/

inductive PresenceCall where
  | addSubscription (subscription : Subscription)
  | nextVersion
  | prepareNotify
  | refreshSubscription (expires : ℕ)
  | terminateSubscription
  | removeSubscription
  | removeSubscriptionIfCurrent (generation : ℕ)
  | expireStale

inductive PresenceResult where
  | nothing
  | version (version : Option UInt32)
  | dialog (dialog : Option NotifyDialogState)
  | found (found : Bool)

inductive PresencePhase where
  | call (call : PresenceCall)
  | insert (subscription : Subscription)
  | write (sequence : ℕ) (write : PresenceWrite) (result : PresenceResult)
  | done (result : PresenceResult)

/-- The entry of the id, the last number drawn, the next generation, and what is enqueued. -/
structure PresenceStore where
  entry : Option Subscription := none
  sequence : ℕ := 0
  nextGeneration : ℕ := 1
  queue : List (ℕ × PresenceWrite) := []

namespace PresenceStore

variable (store : PresenceStore) (moment : Moment)

/-- Under the entry: what it becomes, and the number and the snapshot of its write. -/
def change (entry : Option Subscription)
    (write : PresenceWrite) (result : PresenceResult) : PresenceStore × PresencePhase :=
  let sequence := store.sequence + moment.skippedSequences + 1
  ({ store with entry, sequence }, .write sequence write result)

/-- The entry becomes a subscription, whose snapshot is saved. -/
def save (subscription : Subscription)
    (result : PresenceResult) : PresenceStore × PresencePhase :=
  store.change moment (some subscription) (.save (.of moment subscription)) result

/-- The first access of a call, to the entry of a subscription that is there. -/
def onEntry (subscription : Subscription) :
    PresenceCall → PresenceStore × PresencePhase
  | .nextVersion =>
    store.save moment subscription.takeVersion (.version (some subscription.nextVersion))
  | .prepareNotify =>
    match subscription.callId with
    | none => (store, .done (.dialog none))
    | some callId =>
      store.save moment subscription.nextCseq (.dialog (some (subscription.notifyDialog callId)))
  | .refreshSubscription expires =>
    let generation := store.nextGeneration + moment.skippedGenerations
    let nextGeneration := if subscription.state = .terminated then store.nextGeneration
      else generation + 1
    { store with nextGeneration }.save moment
      (subscription.refresh expires moment.now generation) (.found true)
  | .terminateSubscription => store.change moment (some subscription.terminate) .remove .nothing
  | .removeSubscription => store.change moment none .remove .nothing
  | .removeSubscriptionIfCurrent generation =>
    if subscription.generation = generation then store.change moment none .remove (.found true)
    else (store, .done (.found false))
  /- The sweep removes what it has found once it holds no entry any longer. -/
  | .expireStale =>
    (store, if subscription.isExpired moment.now || subscription.state = .terminated
      then .call .removeSubscription else .done .nothing)
  | .addSubscription _ => (store, .done .nothing)

/-- What a call returns that finds no entry. -/
def missing : PresenceCall → PresenceResult
  | .nextVersion => .version none
  | .prepareNotify => .dialog none
  | .refreshSubscription _ | .removeSubscriptionIfCurrent _ => .found false
  | _ => .nothing

def access : PresencePhase → PresenceStore × PresencePhase
  | .call (.addSubscription subscription) =>
    let generation := store.nextGeneration + moment.skippedGenerations
    ({ store with nextGeneration := generation + 1 }, .insert { subscription with generation })
  | .call call =>
    match store.entry with
    | none => (store, .done (missing call))
    | some subscription => store.onEntry moment subscription call
  | .insert subscription => store.save moment subscription .nothing
  | .write sequence write result =>
    ({ store with queue := store.queue ++ [(sequence, write)] }, .done result)
  | .done result => (store, .done result)

end PresenceStore

end Siphon.Presence
