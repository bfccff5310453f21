import Siphon.B2bua.Call
import Siphon.Library.Run

/-!
# The fork of a call at work

One call that is not routed again: its branches are added, sent and stashed, responses come on the
branches that were sent, the dispatch window opens and closes, and a ring timeout ends the run.  A
response on a branch that is kept apart from the call does not reach it.
-/

namespace Siphon.B2bua

inductive Conclusion where
  /-- A branch was the first to answer. -/
  | answered (branch : Text)
  /-- A settlement carried a failure. -/
  | failed (failure : BranchFailure)
deriving DecidableEq

structure ForkState where
  call : CallActor
  /-- The branches kept answerable apart from the call. -/
  kept : List Text := []
  /-- The branches whose INVITE is on the wire. -/
  sent : List Text := []
  conclusions : List Conclusion := []
  /-- The ring timeout has ended the run. -/
  finished : Bool := false

inductive ForkInput where
  | add (leg : Leg)
  | send (branch : Text)
  | stash (branch : Text) (invite : StashedInvite)
  | provisional (branch : Text)
  | success (branch : Text)
  | failure (branch : Text) (statusCode : ℕ) (response : SipMessage)
  | startForkDispatch
  | finishForkDispatch
  | ringTimeout

namespace ForkState

variable (state : ForkState)

/-- Keep the legs with a stashed INVITE answerable. -/
def keepAnswerable (legs : List Leg) : ForkState :=
  { state with
    kept := state.kept ++ (legs.filter (·.bLegInvite.isSome)).map (·.branch) }

/-- What a settlement does: its branches are kept, and its failure concludes the call. -/
def settled (after : CallActor × BranchSettlement) : ForkState :=
  { { state with call := after.1 }.keepAnswerable after.2.cancelled with
    conclusions := state.conclusions ++ after.2.failure.toList.map .failed }

/-- The INVITE of a branch is stashed, and the CANCEL it was owed is taken up. -/
def stash (branch : Text) (invite : StashedInvite) : ForkState :=
  match state.call.findBLegByBranch branch with
  | none => state
  | some index =>
    let stashed := fun (bLeg : BLeg) =>
      { bLeg with leg := { bLeg.leg with bLegInvite := some invite, pendingCancel := false } }
    let owed := state.call.bLegs[index]?.any (·.leg.pendingCancel)
    { state with
      call := { state.call with bLegs := state.call.bLegs.modify index stashed }
      kept := if owed then state.kept ++ [branch] else state.kept }

def tryWinOn (branch : Text) : ForkState :=
  match state.call.findBLegByBranch branch with
  | none => state
  | some index =>
    match state.call.claimAnswer index with
    | (call, .alreadyAnswered) => { state with call := call }
    | (call, .firstWin cancelled) =>
      { { state with call := call }.keepAnswerable cancelled with
        conclusions := state.conclusions ++ [.answered branch] }

def recordBranchFailureOn (branch : Text) (statusCode : ℕ) (response : SipMessage) : ForkState :=
  match state.call.findBLegByBranch branch with
  | none => state
  | some index => state.settled (state.call.recordBranchFailure index statusCode response)

def tryMarkRinging : ForkState :=
  if state.call.state = .calling then { state with call := { state.call with state := .ringing } }
  else state

/-- The ring timeout: the better failure that is held, or a 408 of its own. -/
def ringTimeout : ForkState :=
  if state.call.state = .calling ∨ state.call.state = .ringing then
    match state.call.settleForkOnTimeout with
    | some after => { state.settled after with finished := true }
    | none =>
      let (call, cancelled) := state.call.cancelPendingBranches none
      { { state with call := call }.keepAnswerable cancelled with finished := true }
  else state

def reaches (branch : Text) : Bool :=
  state.sent.contains branch && !state.kept.contains branch

def next (input : ForkInput) : ForkState :=
  match input with
  | .add leg => { state with call := state.call.addBLeg leg }
  | .send branch => { state with sent := state.sent ++ [branch] }
  | .stash branch invite => state.stash branch invite
  | .provisional branch => if state.reaches branch then state.tryMarkRinging else state
  | .success branch => if state.reaches branch then state.tryWinOn branch else state
  | .failure branch statusCode response =>
    if state.reaches branch then state.recordBranchFailureOn branch statusCode response else state
  | .startForkDispatch => { state with call := { state.call with forkDispatching := true } }
  | .finishForkDispatch => state.settled state.call.finishForkDispatch
  | .ringTimeout => state.ringTimeout

end ForkState

def forkMachine : Machine ForkState ForkInput Empty where
  step state input := (if state.finished then state else state.next input, [])

def ForkState.new (id : Text) (aLeg : Leg) : ForkState where
  call := { id, aLeg }

end Siphon.B2bua
