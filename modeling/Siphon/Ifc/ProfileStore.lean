import Siphon.Library.IndexMap
import Siphon.Library.Threads

/-!
# Persisted profiles

The profile of an address of record lives in three maps: its filter criteria, the shared sets it
names, and the XML it was parsed from.  Stores and removals for one address run interleaved, one
access of a map, one draw or one write at a time.
-/

namespace Siphon.Ifc

/-- What the XML of a profile says: its own criteria and the shared sets it names. -/
structure UserProfile (γ : Type) where
  ifcs : List γ
  sharedIfcSetIds : List ℕ

/-- A write to the backend: its number, and the XML unless it is a removal. -/
abbrev ProfileWrite := ℕ × Option Text

/-- The maps at one address of record, the counter of the writer and what was written. -/
structure IfcStore (γ : Type) where
  profiles : Option (List γ) := none
  sharedIds : Option (List ℕ) := none
  rawXml : Option Text := none
  sharedSets : IndexMap ℕ (List γ) := .empty
  /-- The entry of the XML is held. -/
  locked : Bool := false
  nextSequence : ℕ := 0
  writes : List ProfileWrite := []

inductive ProfileCall where
  | storeProfileXml (xml : Text)
  | removeProfile

inductive ProfilePhase (γ : Type) where
  | noteSharedIds (xml : Text) (profile : UserProfile γ)
  | insertProfile (xml : Text) (ifcs : List γ) (resolved : ℕ)
  | insertXml (xml : Text) (count : ℕ)
  | drawStore (xml : Text) (count : ℕ)
  | saveAt (xml : Text) (count sequence : ℕ)
  | removeProfile
  | removeSharedIds (removed : Bool)
  | enterXml (removed : Bool)
  | drawRemoval (removed occupied : Bool)
  | removeXml (removed : Bool) (sequence : ℕ)
  | removeAt (removed : Bool) (sequence : ℕ)
  /-- The number of criteria that apply. -/
  | stored (count : ℕ)
  | invalid
  | removed (removed : Bool)

namespace IfcStore

variable {γ : Type} (store : IfcStore γ)

/-- How many criteria the shared sets hold that are known. -/
def resolved (ids : List ℕ) : ℕ :=
  (ids.map fun id => ((store.sharedSets.get? id).map List.length).getD 0).sum

/-- Draw the next number; `skipped` were drawn for other addresses. -/
def draw (skipped : ℕ) : IfcStore γ × ℕ :=
  ({ store with nextSequence := store.nextSequence + skipped + 1 }, store.nextSequence + skipped)

def access (skipped : ℕ) : ProfilePhase γ → IfcStore γ × ProfilePhase γ
  | .noteSharedIds xml profile =>
    let ids := profile.sharedIfcSetIds
    ({ store with sharedIds := if ids = [] then none else some ids },
      .insertProfile xml profile.ifcs (store.resolved ids))
  | .insertProfile xml ifcs resolved =>
    ({ store with profiles := some ifcs }, .insertXml xml (ifcs.length + resolved))
  | .insertXml xml count =>
    if store.locked then (store, .insertXml xml count)
    else ({ store with rawXml := some xml, locked := true }, .drawStore xml count)
  | .drawStore xml count =>
    let (store, sequence) := store.draw skipped
    ({ store with locked := false }, .saveAt xml count sequence)
  | .saveAt xml count sequence =>
    ({ store with writes := store.writes ++ [(sequence, some xml)] }, .stored count)
  | .removeProfile =>
    ({ store with profiles := none }, .removeSharedIds store.profiles.isSome)
  | .removeSharedIds removed => ({ store with sharedIds := none }, .enterXml removed)
  | .enterXml removed =>
    if store.locked then (store, .enterXml removed)
    else ({ store with locked := true }, .drawRemoval removed store.rawXml.isSome)
  | .drawRemoval removed occupied =>
    let (store, sequence) := store.draw skipped
    if occupied then (store, .removeXml removed sequence)
    else ({ store with locked := false }, .removeAt removed sequence)
  | .removeXml removed sequence =>
    ({ store with rawXml := none, locked := false }, .removeAt removed sequence)
  | .removeAt removed sequence =>
    ({ store with
        writes := if removed then store.writes ++ [(sequence, none)] else store.writes },
      .removed removed)
  | .stored count => (store, .stored count)
  | .invalid => (store, .invalid)
  | .removed removed => (store, .removed removed)

end IfcStore

section

variable {γ : Type} (parseUserProfile : Text → Option (UserProfile γ))

def ProfileCall.start : ProfileCall → ProfilePhase γ
  | .storeProfileXml xml =>
    match parseUserProfile xml with
    | none => .invalid
    | some profile => .noteSharedIds xml profile
  | .removeProfile => .removeProfile

def profileThreads : Threads (IfcStore γ) ProfileCall (ProfilePhase γ) ℕ Empty where
  start := ProfileCall.start parseUserProfile
  access store skipped phase :=
    let (store, phase) := store.access skipped phase
    (store, phase, [])

/-- A write describes the profile that is held. -/
def Describes (profiles : Option (List γ)) : Option Text → Prop
  | none => profiles = none
  | some xml => ∃ profile, parseUserProfile xml = some profile ∧ profiles = some profile.ifcs

end

namespace ProfilePhase

variable {γ : Type}

def isDone : ProfilePhase γ → Bool
  | .stored _ => true
  | .invalid => true
  | .removed _ => true
  | _ => false

/-- What a call will write that has changed the profile and not drawn its number. -/
def opened : ProfilePhase γ → Option (Option Text)
  | .insertXml xml _ => some (some xml)
  | .drawStore xml _ => some (some xml)
  | .removeSharedIds true => some none
  | .enterXml true => some none
  | .drawRemoval true _ => some none
  | _ => none

def pending : ProfilePhase γ → Option ProfileWrite
  | .saveAt xml _ sequence => some (sequence, some xml)
  | .removeXml true sequence => some (sequence, none)
  | .removeAt true sequence => some (sequence, none)
  | _ => none

def changes (profiles : Option (List γ)) : ProfilePhase γ → Bool
  | .insertProfile _ _ _ => true
  | .removeProfile => profiles.isSome
  | _ => false

end ProfilePhase

/-- No call changes the profile while another one has changed it and not drawn its number. -/
def Undisturbed {γ : Type} (state : IfcStore γ × List (ProfilePhase γ)) :
    Threads.Input ProfileCall ℕ → Prop
  | .begin _ => True
  | .run index _ => (state.2[index]?).any (·.changes state.1.profiles) →
    state.2.filterMap (·.opened) = []

end Siphon.Ifc
