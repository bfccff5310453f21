import Siphon.B2bua.Call
import Siphon.B2bua.LegRegistry
import Siphon.Library.Run

/-!
# The store of calls

The calls by their internal id, and the registry that says which call a Call-ID or a Via branch
belongs to.  Every operation that adds, moves or drops a leg maintains the registry beside the call.
-/

namespace Siphon.B2bua

structure CallStore where
  calls : IndexMap Text CallActor := .empty
  registry : LegRegistry := {}

/-- Why a call is not merged into a room. -/
inductive AdoptRefusal where
  | noDialog
  | busy

namespace CallStore

variable (store : CallStore)

def put (id : Text) (call : CallActor) : CallStore :=
  { store with calls := store.calls.insert id call }

def forgetEndedOwners (sipCallId : Text) : CallStore :=
  { store with
    registry := (store.registry.lookupCallIds sipCallId).foldl
      (fun registry owner =>
        if (store.calls.get? owner).isSome then registry
        else registry.removeCallId sipCallId owner)
      store.registry }

/-! ### Calls and their legs -/

/-- Create a call under the id that was reserved, if no call has it, or under a fresh one. -/
def createCallWithId (aLeg : Leg) (reserved : Option Text) (fresh : Text) : CallStore × Text :=
  let id := (reserved.filter fun id => (store.calls.get? id).isNone).getD fresh
  let store := (store.put id { id, aLeg }).forgetEndedOwners aLeg.callId
  ({ store with
      registry := (store.registry.registerCallId aLeg.callId id .a).registerBranch aLeg.branch id },
    id)

variable (callId : Text)

def addBLeg (leg : Leg) : CallStore :=
  match store.calls.get? callId with
  | none => store
  | some call =>
    { store.put callId (call.addBLeg leg) with
      registry :=
        (store.registry.registerBranch leg.branch callId).registerCallId leg.callId callId .b }

/-- Move the entry of a leg that was superseded to its new branch. -/
def repointBranch (callId oldBranch newBranch : Text) : CallStore :=
  let registry :=
    if oldBranch ≠ newBranch then store.registry.removeBranch oldBranch else store.registry
  { store with registry := registry.registerBranch newBranch callId }

/-- Supersede a leg.  The Call-ID stays registered as it is. -/
def replaceBLeg (index : ℕ) (leg : Leg) : CallStore :=
  match (store.calls.get? callId).bind (·.replaceBLeg index leg) with
  | none => store
  | some (call, oldBranch) => (store.put callId call).repointBranch callId oldBranch leg.branch

/-- Remove a leg.  Its Call-ID goes with it unless another leg of the call has it. -/
def removeBLeg (index : ℕ) : CallStore :=
  match (store.calls.get? callId).bind (·.removeBLeg index) with
  | none => store
  | some (call, removed) =>
    let registry := store.registry.removeBranch removed.branch
    let stillUsed := call.legs.any (·.callId = removed.callId)
    { store.put callId call with
      registry := if stillUsed then registry else registry.removeCallId removed.callId call.id }

def clearBLegs : CallStore :=
  match store.calls.get? callId with
  | none => store
  | some call => store.put callId { call with bLegs := [], winner := none }

def setBLegTargetUri (index : ℕ) (targetUri : Text) : CallStore :=
  match store.calls.get? callId with
  | none => store
  | some call =>
    store.put callId { call with
      bLegs := call.bLegs.modify index fun bLeg =>
        { bLeg with leg := { bLeg.leg with targetUri := some targetUri } } }

def tryWin (index : ℕ) : CallStore :=
  match store.calls.get? callId with
  | none => store
  | some call => store.put callId (call.claimAnswer index).1

/-! ### Taking over a dialog -/

/-- Lift the leg of the caller out of a call and drop the call.  Its Call-ID stays registered. -/
def detachALegForAdoption : Option (CallStore × Leg) :=
  match store.calls.get? callId with
  | none => none
  | some call =>
    some (⟨store.calls.shiftRemove callId, store.registry.removeBranch call.aLeg.branch⟩, call.aLeg)

/-- Hand a dialog of a call over to a new party.  The call is rebuilt around the new leg and the
party that is left. -/
def adoptReplacedDialog (replacedOnALeg : Bool) (newLeg : Leg) :
    Option (CallStore × Leg × Leg) :=
  match store.calls.get? callId with
  | none => none
  | some call =>
    match call.winner.bind (call.bLegs[·]?) with
    | none => none
    | some won =>
      let (replaced, survivor) :=
        if replacedOnALeg then (call.aLeg, won.leg) else (won.leg, call.aLeg)
      let adopted := store.put callId { call with
        aLeg := newLeg
        bLegs := [⟨survivor, .answered⟩]
        winner := some 0
        state := .answered }
      let adopted := adopted.forgetEndedOwners newLeg.callId
      let registry := adopted.registry.registerCallId newLeg.callId callId .a
      let registry := registry.registerBranch newLeg.branch callId
      let registry := registry.removeCallId replaced.callId callId
      let registry := registry.removeBranch replaced.branch
      some ({ adopted with registry }, replaced, survivor)

/-- Move the caller of a new call onto the call it takes over. -/
def adoptAndAnswer (newCallId replacedCallId : Text) (replacedOnALeg : Bool) : CallStore :=
  match store.detachALegForAdoption newCallId with
  | none => store
  | some (detached, newLeg) =>
    match detached.adoptReplacedDialog replacedCallId replacedOnALeg newLeg with
    | none => detached
    | some (adopted, _) => adopted

/-! ### Merging a call into a room -/

/-- Mark a call as being merged, unless something else is under way on it: its teardown, or a
transfer, a bridge or a takeover (`occupied`). -/
def beginAdoption (callId conferenceId ownerCallId : Text)
    (endsWithOwner teardownClaimed occupied : Bool) : Except AdoptRefusal (CallStore × Text) :=
  match store.calls.get? callId with
  | none => .error .noDialog
  | some call =>
    if call.state ≠ .answered ∨ call.winner = none ∨ teardownClaimed then .error .noDialog
    else if call.adoption.isSome || occupied then .error .busy
    else
      let adoption : Adoption := { conferenceId, ownerCallId, endsWithOwner }
      .ok (store.put callId { call with adoption := some adoption }, call.aLeg.callId)

def abandonAdoption : CallStore :=
  match store.calls.get? callId with
  | none => store
  | some call =>
    if call.adoption.any (!·.seated) then store.put callId { call with adoption := none }
    else store

/-- What the call remembers once it is merged: the Call-ID it was known by, if the leg that has it
now is on another. -/
def seatedAdoption (adoption : Adoption) (replacedOnALeg : Bool) (previous current : Text) :
    Adoption :=
  { adoption with
    seated := true
    aliasCallId :=
      if replacedOnALeg && previous ≠ current then some previous else adoption.aliasCallId }

/-- The seat is in: the named leg leaves the call, and the far party is its only leg. -/
def completeAdoption (replacedOnALeg : Bool) : Option (CallStore × Leg) :=
  match store.calls.get? callId with
  | none => none
  | some call =>
    match call.winner.bind (call.bLegs[·]?), call.adoption with
    | some won, some adoption =>
      let (replaced, stays) :=
        if replacedOnALeg then (call.aLeg, won.leg) else (won.leg, call.aLeg)
      let merged := store.put callId { call with
        aLeg := stays
        bLegs := []
        winner := none
        adoption :=
          some (seatedAdoption adoption replacedOnALeg call.aLeg.callId stays.callId) }
      let registry := store.registry.registerCallId stays.callId callId .a
      let registry := registry.removeBranch replaced.branch
      let registry :=
        if !replacedOnALeg && replaced.callId ≠ stays.callId then
          registry.removeCallId replaced.callId callId
        else registry
      some ({ merged with registry }, replaced)
    | _, _ => none

/-! ### Transfers -/

def retirePromotedReferrer (referrer : Leg) : CallStore :=
  { store with
    registry :=
      (store.registry.removeCallId referrer.callId callId).removeBranch referrer.branch }

/-- Promote the target of a transfer, and give back the leg of the referrer. -/
def promoteTransferTarget (targetIdx : ℕ) (referrerOnALeg : Bool) :
    Option (CallStore × Leg) :=
  match store.calls.get? callId with
  | none => none
  | some call =>
    match call.bLegs[targetIdx]? with
    | none => none
    | some target =>
      if referrerOnALeg then
        let promoted := store.put callId { call with
          aLeg := target.leg
          bLegs := call.bLegs.eraseIdx targetIdx
          winner := call.winnerWithout targetIdx }
        some (promoted.retirePromotedReferrer call.id call.aLeg, call.aLeg)
      else
        match call.winner.bind (call.bLegs[·]?) with
        | none => none
        | some referrer =>
          -- The referrer stays in its slot until the call ends.
          let promoted := store.put callId { call with winner := some targetIdx }
          some (promoted.retirePromotedReferrer call.id referrer.leg, referrer.leg)

/-! ### The end of a call -/

/-- Drop the name a call was adopted under. -/
def adoptionEnded (registry : LegRegistry) (callId : Text) (call : CallActor) : LegRegistry :=
  match call.adoption.bind (·.aliasCallId) with
  | none => registry
  | some name => registry.removeCallId name callId

def retireLeg (registry : LegRegistry) (leg : Leg) : LegRegistry :=
  (registry.removeCallId leg.callId callId).removeBranch leg.branch

def removeCall : CallStore :=
  match store.calls.get? callId with
  | none => store
  | some call =>
    let registry := adoptionEnded store.registry callId call
    let registry := (registry.clearOriginatedRefers callId).clearOriginatedCalls callId
    ⟨store.calls.shiftRemove callId, call.legs.foldl (retireLeg callId) registry⟩

/-! ### What siphon sent itself -/

def markOriginated (callId branch : Text) : CallStore :=
  { store with registry := store.registry.registerOriginatedCall branch callId }

def registerOriginatedRefer (branch : Text) (refer : OriginatedRefer) : CallStore :=
  { store with registry := store.registry.registerOriginatedRefer branch refer }

def takeOriginatedRefer (branch : Text) : CallStore :=
  { store with registry := (store.registry.takeOriginatedRefer branch).1 }

end CallStore

/-! ### Runs -/

inductive StoreInput where
  | createCall (aLeg : Leg) (reserved : Option Text) (fresh : Text)
  | addBLeg (callId : Text) (leg : Leg)
  | replaceBLeg (callId : Text) (index : ℕ) (leg : Leg)
  | removeBLeg (callId : Text) (index : ℕ)
  | clearBLegs (callId : Text)
  | setBLegTargetUri (callId : Text) (index : ℕ) (targetUri : Text)
  | tryWin (callId : Text) (index : ℕ)
  | adoptAndAnswer (newCallId replacedCallId : Text) (replacedOnALeg : Bool)
  | beginAdoption (callId conferenceId ownerCallId : Text)
      (endsWithOwner teardownClaimed occupied : Bool)
  | abandonAdoption (callId : Text)
  | completeAdoption (callId : Text) (replacedOnALeg : Bool)
  | promoteTransferTarget (callId : Text) (targetIdx : ℕ) (referrerOnALeg : Bool)
  | removeCall (callId : Text)
  | markOriginated (callId branch : Text)
  | registerOriginatedRefer (branch : Text) (refer : OriginatedRefer)
  | takeOriginatedRefer (branch : Text)

/-- One operation after the other; a promotion puts out the leg of the referrer. -/
def storeMachine : Machine CallStore StoreInput Leg where
  step store input :=
    match input with
    | .createCall aLeg reserved fresh => ((store.createCallWithId aLeg reserved fresh).1, [])
    | .addBLeg callId leg => (store.addBLeg callId leg, [])
    | .replaceBLeg callId index leg => (store.replaceBLeg callId index leg, [])
    | .removeBLeg callId index => (store.removeBLeg callId index, [])
    | .clearBLegs callId => (store.clearBLegs callId, [])
    | .setBLegTargetUri callId index uri => (store.setBLegTargetUri callId index uri, [])
    | .tryWin callId index => (store.tryWin callId index, [])
    | .adoptAndAnswer newCallId replacedCallId onALeg =>
      (store.adoptAndAnswer newCallId replacedCallId onALeg, [])
    | .beginAdoption callId conferenceId ownerCallId endsWithOwner claimed occupied =>
      match store.beginAdoption callId conferenceId ownerCallId endsWithOwner claimed occupied with
      | .error _ => (store, [])
      | .ok (store, _) => (store, [])
    | .abandonAdoption callId => (store.abandonAdoption callId, [])
    | .completeAdoption callId onALeg =>
      match store.completeAdoption callId onALeg with
      | none => (store, [])
      | some (store, _) => (store, [])
    | .promoteTransferTarget callId targetIdx onALeg =>
      match store.promoteTransferTarget callId targetIdx onALeg with
      | none => (store, [])
      | some (store, referrer) => (store, [referrer])
    | .removeCall callId => (store.removeCall callId, [])
    | .markOriginated callId branch => (store.markOriginated callId branch, [])
    | .registerOriginatedRefer branch refer => (store.registerOriginatedRefer branch refer, [])
    | .takeOriginatedRefer branch => (store.takeOriginatedRefer branch, [])

end Siphon.B2bua
