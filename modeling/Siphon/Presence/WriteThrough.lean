import Siphon.Library.Issued
import Siphon.Presence.Store

/-!
# The stored subscription follows memory

The numbers of the writes are drawn under the entry, so they are in the order of the changes and the
write with the highest number is that of the last one.
-/

namespace Siphon.Presence

/-- The write that the subscription in memory asks for: a save as it is at some moment, or a removal
if it is gone or terminated. -/
def Describes (entry : Option Subscription) (write : PresenceWrite) : Prop :=
  match entry.filter (·.state ≠ .terminated) with
  | some subscription => ∃ moment, write = .save (.of moment subscription)
  | none => write = .remove

namespace PresencePhase

def pending : PresencePhase → Option (ℕ × PresenceWrite)
  | .write sequence issued _ => some (sequence, issued)
  | _ => none

def isDone : PresencePhase → Bool
  | .done _ => true
  | _ => false

end PresencePhase

def issued (store : PresenceStore) (calls : List PresencePhase) : List (ℕ × PresenceWrite) :=
  Issued.writes PresencePhase.pending store.queue calls

/-- Every write has its own number, and the one with the highest number describes the entry. -/
structure Follows (store : PresenceStore) (calls : List PresencePhase) : Prop where
  numbered : Issued.Numbered (store.sequence + 1) (issued store calls)
  highest : Issued.Highest (Describes store.entry) (issued store calls)
  unwritten : issued store calls = [] → store.entry = none

/-- An access saves no subscription that is terminated. -/
def Allowed (store : PresenceStore) : PresencePhase → Prop
  | .insert subscription => subscription.state ≠ .terminated
  | .call .nextVersion | .call (.refreshSubscription _) =>
    ∀ subscription ∈ store.entry, subscription.state ≠ .terminated
  | .call .prepareNotify => ∀ subscription ∈ store.entry, subscription.callId ≠ none →
    subscription.state ≠ .terminated
  | _ => True

namespace PresenceStore

variable (store : PresenceStore) (moment : Moment)

end PresenceStore

/-! ### Runs -/

variable {store store' : PresenceStore} {phase phase' : PresencePhase}
  {before after : List PresencePhase}

theorem Follows.congr (h : Follows store (before ++ phase :: after))
    (hperm : (issued store' (before ++ phase' :: after)).Perm
      (issued store (before ++ phase :: after)))
    (hentry : store'.entry = store.entry) (hsequence : store'.sequence = store.sequence) :
  Follows store' (before ++ phase' :: after)
  where
  numbered := @Issued.Numbered.step _ _ _ _ _ h.numbered none hperm
    (Nat.le_of_eq (by rw [hsequence])) nofun
  highest := by
    rw [hentry]
    exact (Issued.highest_congr hperm).mpr h.highest
  unwritten hnil := hentry.trans (h.unwritten (hnil ▸ hperm).nil_eq.symm)

end Siphon.Presence
