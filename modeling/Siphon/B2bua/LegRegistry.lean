import Siphon.B2bua.Leg
import Siphon.Library.IndexMap

/-!
# The registry of legs

Which call a Call-ID or the Via branch of an INVITE belongs to, and whether a provisional response
has come on a branch.
-/

namespace Siphon.B2bua

open List IndexMap

structure CallIdOwner where
  callId : Text
  callerDialog : Bool
deriving DecidableEq

structure BranchEntry where
  callId : Text
  provisional : Bool := false

/-- A REFER siphon sent itself: the call it was sent on. -/
structure OriginatedRefer where
  callId : Text

structure LegRegistry where
  byCallId : IndexMap Text (List CallIdOwner) := .empty
  byBranch : IndexMap Text BranchEntry := .empty
  /-- The branches of the INVITEs siphon placed itself. -/
  originatedCalls : IndexMap Text BranchEntry := .empty
  /-- The branches of the REFERs siphon sent itself. -/
  originatedRefers : IndexMap Text OriginatedRefer := .empty

namespace LegRegistry

variable (registry : LegRegistry) (branch : Text)

/-! ### Provisional responses -/

def provisionalReceived : Bool :=
  match registry.byBranch.get? branch with
  | some entry => entry.provisional
  | none => (registry.originatedCalls.get? branch).any (·.provisional)

def noteLeg : LegRegistry :=
  { registry with byBranch := registry.byBranch.modify branch ({ · with provisional := true }) }

/-- Record a provisional for an INVITE siphon placed itself. -/
def noteOriginated : LegRegistry :=
  { registry with
    originatedCalls := registry.originatedCalls.modify branch ({ · with provisional := true }) }

/-! ### Call-IDs and branches -/

def claimOwner (internalId : Text) (callerDialog : Bool) : List CallIdOwner → List CallIdOwner
  | [] => [⟨internalId, callerDialog⟩]
  | owner :: owners =>
    if owner.callId = internalId then
      { owner with callerDialog := owner.callerDialog || callerDialog } :: owners
    else owner :: claimOwner internalId callerDialog owners

/-- Map a Call-ID to a call, for the dialog on a side of it. -/
def registerCallId (sipCallId internalId : Text) (side : LegSide) : LegRegistry :=
  let claim := claimOwner internalId (side = .a)
  { registry with byCallId := registry.byCallId.upsert sipCallId (claim []) claim }

def registerBranch (branch internalId : Text) : LegRegistry :=
  { registry with byBranch := registry.byBranch.insert branch { callId := internalId } }

/-- The call of a Call-ID: the one whose caller dialog has it, or the first one. -/
def lookupCallId (sipCallId : Text) : Option Text :=
  (registry.byCallId.get? sipCallId).bind fun owners =>
    ((owners.find? (·.callerDialog)).or owners.head?).map (·.callId)

/-- Every call of a Call-ID, the one whose caller dialog has it first. -/
def lookupCallIds (sipCallId : Text) : List Text :=
  let owners := registry.byCallId.members sipCallId
  (owners.filter (·.callerDialog) ++ owners.filter (!·.callerDialog)).map (·.callId)

def lookupBranch : Option Text :=
  (registry.byBranch.get? branch).map (·.callId)

def removeCallId (sipCallId internalId : Text) : LegRegistry :=
  let byCallId := registry.byCallId.modify sipCallId (·.filter (·.callId ≠ internalId))
  { registry with
    byCallId :=
      if byCallId.get? sipCallId = some [] then byCallId.shiftRemove sipCallId else byCallId }

def removeBranch : LegRegistry :=
  { registry with byBranch := registry.byBranch.shiftRemove branch }

/-! ### What siphon sent itself -/

def registerOriginatedCall (branch internalId : Text) : LegRegistry :=
  { registry with
    originatedCalls := registry.originatedCalls.insert branch { callId := internalId } }

variable (internalId : Text)

def clearOriginatedCalls : LegRegistry :=
  { registry with originatedCalls := registry.originatedCalls.retain (·.callId ≠ internalId) }

def registerOriginatedRefer (refer : OriginatedRefer) : LegRegistry :=
  { registry with originatedRefers := registry.originatedRefers.insert branch refer }

def takeOriginatedRefer : LegRegistry × Option OriginatedRefer :=
  ({ registry with originatedRefers := registry.originatedRefers.shiftRemove branch },
    registry.originatedRefers.get? branch)

def clearOriginatedRefers : LegRegistry :=
  { registry with originatedRefers := registry.originatedRefers.retain (·.callId ≠ internalId) }

/-! ### What the registry says -/

def Owns (internalId sipCallId : Text) : Prop :=
  ∃ owner ∈ registry.byCallId.members sipCallId, owner.callId = internalId

/-- Something that siphon sent itself belongs to a call. -/
def Originates : Prop :=
  (∃ branch, (registry.originatedCalls.get? branch).map (·.callId) = some internalId) ∨
    ∃ branch, (registry.originatedRefers.get? branch).map (·.callId) = some internalId

def Names : Prop :=
  (∃ branch, registry.lookupBranch branch = some internalId) ∨
    (∃ sipCallId, internalId ∈ registry.lookupCallIds sipCallId) ∨ registry.Originates internalId

variable {registry : LegRegistry} {internalId sipCallId : Text}

/-- A Call-ID is looked up as all its owners. -/
theorem mem_lookupCallIds :
  internalId ∈ registry.lookupCallIds sipCallId ↔ registry.Owns internalId sipCallId
  := by
  simp only [lookupCallIds, Owns, mem_map, mem_append, mem_filter, Bool.not_eq_true']
  constructor
  · rintro ⟨owner, ⟨hmem, -⟩ | ⟨hmem, -⟩, rfl⟩
    · exact ⟨owner, hmem, rfl⟩
    · exact ⟨owner, hmem, rfl⟩
  · rintro ⟨owner, hmem, rfl⟩
    cases hdialog : owner.callerDialog with
    | true => exact ⟨owner, .inl ⟨hmem, hdialog⟩, rfl⟩
    | false => exact ⟨owner, .inr ⟨hmem, hdialog⟩, rfl⟩

/-- An only owner is what is looked up. -/
theorem lookupCallId_eq_some (h : registry.Owns internalId sipCallId)
    (honly : ∀ other, registry.Owns other sipCallId → other = internalId) :
  registry.lookupCallId sipCallId = some internalId
  := by
  obtain ⟨owner, hmem, -⟩ := h
  cases howners : registry.byCallId.get? sipCallId with
  | none => simp [members, howners] at hmem
  | some owners =>
  have hmembers : registry.byCallId.members sipCallId = owners := by
    simp [members, howners]
  rw [hmembers] at hmem
  have hall : ∀ chosen ∈ owners, chosen.callId = internalId := fun chosen hchosen =>
    honly _ ⟨chosen, by rwa [hmembers], rfl⟩
  rw [lookupCallId, howners, Option.bind_some]
  cases hfind : owners.find? (·.callerDialog) with
  | some chosen => simp [hall chosen (mem_of_find?_eq_some hfind)]
  | none =>
  cases owners with
  | nil => cases hmem
  | cons first others => simp [hall first mem_cons_self]

variable {other : Text}

/-- A claim adds its call and keeps the others. -/
theorem exists_claimOwner {callerDialog : Bool} {owners : List CallIdOwner} :
  (∃ owner ∈ claimOwner internalId callerDialog owners, owner.callId = other) ↔
    other = internalId ∨ ∃ owner ∈ owners, owner.callId = other
  := by
  induction owners with
  | nil => simp [claimOwner, eq_comm]
  | cons owner owners ih =>
  rw [claimOwner]
  split
  · rename_i hsame
    simp only [exists_mem_cons_iff, hsame]
    tauto
  · simp only [exists_mem_cons_iff, ih]
    tauto

variable {otherCallId : Text}

/-- To register is to add one owner. -/
@[simp] theorem owns_registerCallId {side : LegSide} :
  (registry.registerCallId sipCallId internalId side).Owns other otherCallId ↔
    registry.Owns other otherCallId ∨ other = internalId ∧ otherCallId = sipCallId
  := by
  simp only [Owns, registerCallId, members, get?_upsert]
  split
  · rename_i hsame
    subst hsame
    cases registry.byCallId.get? otherCallId with
    | none =>
      simp only [Option.elim_none, Option.getD_some, exists_claimOwner]
      simp
    | some owners =>
      simp only [Option.elim_some, Option.getD_some, exists_claimOwner, and_true]
      exact or_comm
  · rename_i hother
    simp [hother]

theorem members_removeCallId :
  (registry.removeCallId sipCallId internalId).byCallId.members otherCallId =
    if otherCallId = sipCallId then
      (registry.byCallId.members otherCallId).filter (·.callId ≠ internalId)
    else registry.byCallId.members otherCallId
  := by
  simp only [removeCallId, members]
  by_cases hsame : otherCallId = sipCallId
  · subst hsame
    rw [if_pos rfl]
    split
    · rename_i hempty
      rw [get?_modify, if_pos rfl] at hempty
      obtain ⟨owners, howners, hnone⟩ := Option.map_eq_some_iff.mp hempty
      rw [get?_shiftRemove, if_pos rfl, howners, Option.getD_some, hnone]
      rfl
    · rw [get?_modify, if_pos rfl]
      cases registry.byCallId.get? otherCallId with
      | none | some => rfl
  · split
    · rw [get?_shiftRemove, if_neg hsame, get?_modify, if_neg hsame]
    · rw [get?_modify, if_neg hsame]

/-- To remove is to take one owner away. -/
@[simp] theorem owns_removeCallId :
  (registry.removeCallId sipCallId internalId).Owns other otherCallId ↔
    registry.Owns other otherCallId ∧ ¬(other = internalId ∧ otherCallId = sipCallId)
  := by
  rw [Owns, members_removeCallId]
  by_cases hsame : otherCallId = sipCallId
  · simp only [hsame, if_true, and_true, Owns, mem_filter, decide_eq_true_eq]
    constructor
    · rintro ⟨owner, ⟨hmem, hne⟩, rfl⟩
      exact ⟨⟨owner, hmem, rfl⟩, hne⟩
    · rintro ⟨⟨owner, hmem, rfl⟩, hne⟩
      exact ⟨owner, ⟨hmem, hne⟩, rfl⟩
  · simp [hsame, Owns]

variable {branch : Text}

@[simp] theorem lookupBranch_registerBranch :
  (registry.registerBranch branch internalId).lookupBranch other =
    if other = branch then some internalId else registry.lookupBranch other
  := by
  simp only [registerBranch, lookupBranch, get?_insert]
  split <;> rfl

@[simp] theorem lookupBranch_removeBranch :
  (registry.removeBranch branch).lookupBranch other =
    if other = branch then none else registry.lookupBranch other
  := by
  simp only [removeBranch, lookupBranch, get?_shiftRemove]
  split <;> rfl

/-- An INVITE siphon places is of one call. -/
theorem originates_registerOriginatedCall
    (h : (registry.registerOriginatedCall branch internalId).Originates other) :
  registry.Originates other ∨ other = internalId
  := by
  rcases h with ⟨place, hcall⟩ | hrefer
  · rw [registerOriginatedCall, get?_insert] at hcall
    split at hcall
    · cases hcall
      exact .inr rfl
    · exact .inl (.inl ⟨place, hcall⟩)
  · exact .inl (.inr hrefer)

theorem originates_registerOriginatedRefer {refer : OriginatedRefer}
    (h : (registry.registerOriginatedRefer branch refer).Originates other) :
  registry.Originates other ∨ other = refer.callId
  := by
  rcases h with hcall | ⟨place, hrefer⟩
  · exact .inl (.inl hcall)
  rw [registerOriginatedRefer, get?_insert] at hrefer
  split at hrefer
  · cases hrefer
    exact .inr rfl
  · exact .inl (.inr ⟨place, hrefer⟩)

theorem originates_takeOriginatedRefer
    (h : (registry.takeOriginatedRefer branch).1.Originates other) :
  registry.Originates other
  := by
  rcases h with hcall | ⟨place, hrefer⟩
  · exact .inl hcall
  rw [takeOriginatedRefer, get?_shiftRemove] at hrefer
  split at hrefer
  · cases hrefer
  · exact .inr ⟨place, hrefer⟩

/-- A call that is cleared originates nothing. -/
theorem originates_clear
    (h : ((registry.clearOriginatedRefers internalId).clearOriginatedCalls internalId).Originates
      other) :
  registry.Originates other ∧ other ≠ internalId
  := by
  rcases h with ⟨branch, hcall⟩ | ⟨branch, hrefer⟩
  · simp only [clearOriginatedCalls, clearOriginatedRefers, get?_retain] at hcall
    obtain ⟨entry, hentry, rfl⟩ := Option.map_eq_some_iff.mp hcall
    obtain ⟨hget, hother⟩ := Option.filter_eq_some_iff.mp hentry
    exact ⟨.inl ⟨branch, by rw [hget]; rfl⟩, by simpa using hother⟩
  · simp only [clearOriginatedCalls, clearOriginatedRefers, get?_retain] at hrefer
    obtain ⟨refer, hkept, rfl⟩ := Option.map_eq_some_iff.mp hrefer
    obtain ⟨hget, hother⟩ := Option.filter_eq_some_iff.mp hkept
    exact ⟨.inr ⟨branch, by rw [hget]; rfl⟩, by simpa using hother⟩

/-! ### What an operation leaves alone -/

variable (sipCallId internalId branch : Text)

@[simp] theorem lookupBranch_registerCallId (side : LegSide) :
  (registry.registerCallId sipCallId internalId side).lookupBranch branch =
    registry.lookupBranch branch
  := rfl

@[simp] theorem lookupBranch_removeCallId :
  (registry.removeCallId sipCallId internalId).lookupBranch branch = registry.lookupBranch branch
  := rfl

@[simp] theorem owns_registerBranch (branch internalId other otherCallId : Text) :
  (registry.registerBranch branch internalId).Owns other otherCallId ↔
    registry.Owns other otherCallId
  := Iff.rfl

@[simp] theorem owns_removeBranch (branch other otherCallId : Text) :
  (registry.removeBranch branch).Owns other otherCallId ↔ registry.Owns other otherCallId
  := Iff.rfl

variable (sipCallId internalId other : Text)

@[simp] theorem originates_registerCallId (side : LegSide) :
  (registry.registerCallId sipCallId internalId side).Originates other ↔ registry.Originates other
  := Iff.rfl

@[simp] theorem originates_removeCallId :
  (registry.removeCallId sipCallId internalId).Originates other ↔ registry.Originates other
  := Iff.rfl

@[simp] theorem originates_registerBranch (branch internalId other : Text) :
  (registry.registerBranch branch internalId).Originates other ↔ registry.Originates other
  := Iff.rfl

@[simp] theorem originates_removeBranch (branch other : Text) :
  (registry.removeBranch branch).Originates other ↔ registry.Originates other
  := Iff.rfl

end LegRegistry

end Siphon.B2bua
