import Siphon.Library.Text

/-!
# Legs of a call

One side of a call: the dialog it is in, the Via branch of its INVITE, and the INVITE it was sent
with once that is stashed.
-/

namespace Siphon.B2bua

inductive LegSide where
  | a
  | b
deriving DecidableEq

/-- A stashed INVITE: its Request-URI, unless it cannot be read back. -/
structure StashedInvite where
  requestUri : Option Text
deriving DecidableEq

structure Leg where
  id : Text
  side : LegSide
  branch : Text
  callId : Text
  /-- Where the INVITE went, or the mark of a leg that only tracks a response. -/
  targetUri : Option Text := none
  bLegInvite : Option StashedInvite := none
  /-- The CANCEL came before the INVITE was stashed. -/
  pendingCancel : Bool := false
deriving DecidableEq

/-- The in-dialog requests that are relayed across a call. -/
inductive ForwardedMarker where
  | refer
  | notify
  | info

namespace ForwardedMarker

def all : List ForwardedMarker := [.refer, .notify, .info]

def asStr : ForwardedMarker → Text
  | .refer => "refer".toList
  | .notify => "notify".toList
  | .info => "info".toList

/-- The marker of a request that is still to be answered, and its direction. -/
def fromTrackingTarget (target : Text) : Option (ForwardedMarker × Text) :=
  all.findSome? fun marker =>
    if (marker.asStr ++ [':']).isPrefixOf target then
      some (marker, target.drop (marker.asStr.length + 1))
    else none

def isDoneTarget (target : Text) : Bool :=
  all.any fun marker => (marker.asStr ++ "_done:".toList).isPrefixOf target

end ForwardedMarker

/-- Whether a leg only tracks the response to a request within the call. -/
def Leg.isTrackingLeg (leg : Leg) : Bool :=
  leg.targetUri.any fun target =>
    "reinvite:".toList.isPrefixOf target || "reinvite_done:".toList.isPrefixOf target ||
      "update:".toList.isPrefixOf target || "update_done:".toList.isPrefixOf target ||
      (ForwardedMarker.fromTrackingTarget target).isSome || ForwardedMarker.isDoneTarget target ||
      "refer_out:".toList.isPrefixOf target || "refer_out_done:".toList.isPrefixOf target

inductive BLegStatus where
  | trying
  | ringing
  | answered
  | failed (code : ℕ)
  | cancelled
deriving DecidableEq

end Siphon.B2bua
