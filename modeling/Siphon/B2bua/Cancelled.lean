import Siphon.B2bua.LegRegistry
import Siphon.Library.Threads

/-!
# Branches that were given up on

A branch siphon gave up on is kept apart from its call, and its CANCEL waits for a provisional.
Calls on the map run interleaved, one access of a map or of the count at a time; an entry that a
call holds keeps the others waiting.
-/

namespace Siphon.B2bua

/-- How long a branch is kept, in seconds. -/
def cancelledBranchLifetime : ℕ := 32

/-- A branch that was given up on. -/
structure ZombieCancelledLeg where
  leg : Leg
  inviteRuri : Option Text
  byed : Bool
  awaitingProvisional : Bool
  /-- A provisional had come when the branch was given up on. -/
  provisionalReceived : Bool
  expiresAt : ℕ

def ZombieCancelledLeg.new (leg : Leg) (invite : StashedInvite) (now : ℕ) : ZombieCancelledLeg where
  leg := leg
  inviteRuri := invite.requestUri
  byed := false
  awaitingProvisional := true
  provisionalReceived := false
  expiresAt := now + cancelledBranchLifetime

inductive CancelCall where
  | keepLeg (leg : Leg) (invite : StashedInvite)
  | claimCancel (branch : Text)
  | provisionalReceived (branch : Text)
  | zombieCancelledFor2xx (branch : Text)
  | zombieCancelledForNon2xx (branch : Text)
  | inviteTransactionTimedOut (branch : Text)
  | expireCancelledBranch (branch : Text) (now : ℕ)

inductive CancelPhase where
  | keep (leg : Leg) (invite : StashedInvite)
  | raise (branch : Text)
  | keepReadLeg (branch : Text)
  | keepReadOriginated (branch : Text)
  | mark (branch : Text)
  | claim (branch : Text)
  /-- The entry is held. -/
  | claimReadLeg (branch : Text)
  | claimReadOriginated (branch : Text)
  | noteLeg (branch : Text)
  | noteOriginated (branch : Text)
  | load (branch : Text)
  | take (branch : Text)
  | success (branch : Text)
  | failure (branch : Text)
  | timerLoad (branch : Text)
  | timerSettle (branch : Text)
  | expire (branch : Text) (now : ℕ)
  /-- The count goes down by one, and then the entry is let go. -/
  | lower (held : Option Text)
  | done
deriving DecidableEq

def CancelCall.start : CancelCall → CancelPhase
  | .keepLeg leg invite => .keep leg invite
  | .claimCancel branch => .claim branch
  | .provisionalReceived branch => .noteLeg branch
  | .zombieCancelledFor2xx branch => .success branch
  | .zombieCancelledForNon2xx branch => .failure branch
  | .inviteTransactionTimedOut branch => .timerLoad branch
  | .expireCancelledBranch branch now => .expire branch now

/-- What a call does to a branch, and what it gives back. -/
inductive CancelEvent where
  | kept (branch : Text)
  | provisional (branch : Text)
  /-- The CANCEL is handed out, by `provisional_received` with the leg. -/
  | released (branch : Text) (leg : Option Leg)
  /-- The CANCEL is left to the first provisional. -/
  | refused (branch : Text)
  /-- A 2xx: the leg, and whether it is the first one. -/
  | success (branch : Text) (answer : Option (Leg × Bool))
  /-- Another final response: the leg and the Request-URI for the ACK. -/
  | failure (branch : Text) (answer : Option (Leg × Option Text))
  | timedOut (branch : Text)
  | expired (branch : Text)
deriving DecidableEq

/-- The kept branches, the count of the CANCELs that wait, and the entries that are held.  Between a
decrement and the increment it overtook the count is negative: the code has its residue. -/
structure CancelStore where
  zombieCancelled : IndexMap Text ZombieCancelledLeg := .empty
  deferredCancels : ℤ := 0
  registry : LegRegistry := {}
  held : List Text := []

namespace CancelStore

variable (store : CancelStore) (branch : Text)

def kept? : Option ZombieCancelledLeg :=
  store.zombieCancelled.get? branch

def awaits : Bool :=
  (store.kept? branch).any (·.awaitingProvisional)

def modify (f : ZombieCancelledLeg → ZombieCancelledLeg) : CancelStore :=
  { store with zombieCancelled := store.zombieCancelled.modify branch f }

def settle : CancelStore :=
  store.modify branch ({ · with awaitingProvisional := false })

def hold : CancelStore :=
  { store with held := branch :: store.held }

def letGo : CancelStore :=
  { store with held := store.held.erase branch }

/-- What `claim_cancel` does with the entry it holds once it knows of a provisional or of none. -/
def decideClaim (provisional : Bool) :
    CancelStore × CancelPhase × List CancelEvent :=
  if provisional then (store.settle branch, .lower (some branch), [.released branch none])
  else (store.letGo branch, .done, [.refused branch])

/-- What a call does with an entry it finds, if nobody holds it; it waits otherwise. -/
def withEntry (phase : CancelPhase)
    (found : Option ZombieCancelledLeg → CancelStore × CancelPhase × List CancelEvent) :
    CancelStore × CancelPhase × List CancelEvent :=
  if branch ∈ store.held then (store, phase, []) else found (store.kept? branch)

/-- What a final response or Timer B does with an entry: the CANCEL it was owed is owed no
longer. -/
def settleOwedCancel (entry : ZombieCancelledLeg) (event : CancelEvent) :
    CancelStore × CancelPhase × List CancelEvent :=
  if entry.awaitingProvisional then
    ((store.settle branch).hold branch, .lower (some branch), [event])
  else (store, .done, [event])

def access (now : ℕ) : CancelPhase → CancelStore × CancelPhase × List CancelEvent
  | .keep leg invite =>
    store.withEntry leg.branch (.keep leg invite) fun
      | some _ => (store, .done, [])
      | none =>
        ({ store with
            zombieCancelled := store.zombieCancelled.insert leg.branch (.new leg invite now) },
          .raise leg.branch, [.kept leg.branch])
  | .raise branch =>
    ({ store with deferredCancels := store.deferredCancels + 1 }, .keepReadLeg branch, [])
  | .keepReadLeg branch =>
    match store.registry.byBranch.get? branch with
    | some entry => (store, if entry.provisional then .mark branch else .done, [])
    | none => (store, .keepReadOriginated branch, [])
  | .keepReadOriginated branch =>
    (store, if (store.registry.originatedCalls.get? branch).any (·.provisional) then .mark branch
      else .done, [])
  | .mark branch =>
    store.withEntry branch (.mark branch) fun _ =>
      (store.modify branch ({ · with provisionalReceived := true }), .done, [])
  | .claim branch =>
    store.withEntry branch (.claim branch) fun
      | none => (store, .done, [])
      | some entry =>
        if !entry.awaitingProvisional then (store, .done, [])
        else if entry.provisionalReceived then (store.hold branch).decideClaim branch true
        else (store.hold branch, .claimReadLeg branch, [])
  | .claimReadLeg branch =>
    match store.registry.byBranch.get? branch with
    | some entry => store.decideClaim branch entry.provisional
    | none => (store, .claimReadOriginated branch, [])
  | .claimReadOriginated branch =>
    store.decideClaim branch
      ((store.registry.originatedCalls.get? branch).any (·.provisional))
  | .noteLeg branch =>
    match store.registry.byBranch.get? branch with
    | some _ =>
      ({ store with registry := store.registry.noteLeg branch }, .load branch,
        [.provisional branch])
    | none => (store, .noteOriginated branch, [.provisional branch])
  | .noteOriginated branch =>
    ({ store with registry := store.registry.noteOriginated branch }, .load branch, [])
  | .load branch => (store, if store.deferredCancels = 0 then .done else .take branch, [])
  | .take branch =>
    store.withEntry branch (.take branch) fun
      | none => (store, .done, [])
      | some entry =>
        if !entry.awaitingProvisional then (store, .done, [])
        else
          ((store.modify branch
              ({ · with
                awaitingProvisional := false, expiresAt := now + cancelledBranchLifetime })).hold
              branch,
            .lower (some branch), [.released branch (some entry.leg)])
  | .success branch =>
    store.withEntry branch (.success branch) fun
      | none => (store, .done, [.success branch none])
      | some entry =>
        (store.modify branch ({ · with byed := true })).settleOwedCancel branch entry
          (.success branch (some (entry.leg, !entry.byed)))
  | .failure branch =>
    store.withEntry branch (.failure branch) fun
      | none => (store, .done, [.failure branch none])
      | some entry =>
        store.settleOwedCancel branch entry (.failure branch (some (entry.leg, entry.inviteRuri)))
  | .timerLoad branch =>
    if store.deferredCancels = 0 then (store, .done, [.timedOut branch])
    else (store, .timerSettle branch, [])
  | .timerSettle branch =>
    store.withEntry branch (.timerSettle branch) fun
      | none => (store, .done, [.timedOut branch])
      | some entry => store.settleOwedCancel branch entry (.timedOut branch)
  | .expire branch due =>
    store.withEntry branch (.expire branch due) fun
      | none => (store, .done, [])
      | some entry =>
        if due < entry.expiresAt then (store, .done, [])
        else
          ({ store with zombieCancelled := store.zombieCancelled.shiftRemove branch },
            if entry.awaitingProvisional then .lower none else .done, [.expired branch])
  | .lower held =>
    ({ store with
        deferredCancels := store.deferredCancels - 1
        held := held.elim store.held store.held.erase }, .done, [])
  | .done => (store, .done, [])

end CancelStore

/-- The calls on the kept branches. -/
def cancelThreads : Threads CancelStore CancelCall CancelPhase ℕ CancelEvent where
  start := CancelCall.start
  access store now phase := store.access now phase

end Siphon.B2bua
