import Siphon.B2bua.Leg
import Siphon.Proxy.Fork

/-!
# A call and the fork of its callees

A call has the leg of its caller and one leg for each branch it was forked to.  The fork is
concluded by the first branch that answers, or by the best failure once no branch can answer any
more.
-/

namespace Siphon.B2bua

open List

open Proxy (ResponseRank)

inductive CallState where
  | calling
  | ringing
  | answered
  | terminated
deriving DecidableEq

structure BLeg where
  leg : Leg
  status : BLegStatus

namespace BLeg

/-- Whether a leg is a branch that waits for its final response. -/
def isPending (bLeg : BLeg) : Bool :=
  (bLeg.status = .trying || bLeg.status = .ringing) && !bLeg.leg.isTrackingLeg

def isStashed (bLeg : BLeg) : Bool :=
  bLeg.leg.bLegInvite.isSome

/-- Cancel a branch: at once if its INVITE is stashed, and as soon as it is otherwise. -/
def cancel (bLeg : BLeg) : BLeg where
  leg := if bLeg.isStashed then bLeg.leg else { bLeg.leg with pendingCancel := true }
  status := .cancelled

end BLeg

structure BranchFailure where
  branch : Text
  statusCode : ℕ
  response : SipMessage
deriving DecidableEq

def BranchFailure.declines (failure : BranchFailure) : Bool :=
  600 ≤ failure.statusCode && failure.statusCode < 700

structure BranchSettlement where
  cancelled : List Leg := []
  failure : Option BranchFailure := none
  alreadySettled : Bool := false

inductive WinOutcome where
  | firstWin (cancelled : List Leg)
  | alreadyAnswered

/-- What a call remembers of having been merged into a room. -/
structure Adoption where
  conferenceId : Text
  /-- The call whose dialog adopted it. -/
  ownerCallId : Text
  endsWithOwner : Bool
  /-- The Call-ID the call was known by before, if no leg has it any more. -/
  aliasCallId : Option Text := none
  seated : Bool := false

structure CallActor where
  id : Text
  state : CallState := .calling
  aLeg : Leg
  bLegs : List BLeg := []
  winner : Option ℕ := none
  /-- The branches are still being sent. -/
  forkDispatching : Bool := false
  forkBestFailure : Option BranchFailure := none
  adoption : Option Adoption := none

namespace CallActor

variable (call : CallActor)

def addBLeg (leg : Leg) : CallActor :=
  { call with bLegs := call.bLegs ++ [⟨leg, .trying⟩] }

def legs : List Leg :=
  call.aLeg :: call.bLegs.map (·.leg)

variable (index : ℕ)

/-- The winner's index once the leg at an index is gone. -/
def winnerWithout : Option ℕ :=
  match call.winner with
  | none => none
  | some winner =>
    if winner = index then none else if index < winner then some (winner - 1) else some winner

def removeBLeg : Option (CallActor × Leg) :=
  match call.bLegs[index]? with
  | none => none
  | some bLeg =>
    some ({ call with bLegs := call.bLegs.eraseIdx index, winner := call.winnerWithout index },
      bLeg.leg)

/-- Supersede the leg at an index by one for a retry, and give back the branch it had. -/
def replaceBLeg (leg : Leg) : Option (CallActor × Text) :=
  match call.bLegs[index]? with
  | none => none
  | some old =>
    some ({ call with bLegs := call.bLegs.set index ⟨{ leg with id := old.leg.id }, .trying⟩ },
      old.leg.branch)

def findBLegByBranch (branch : Text) : Option ℕ :=
  call.bLegs.findIdx? (·.leg.branch = branch)

def isPendingBranch : Bool :=
  call.bLegs[index]?.any BLeg.isPending

def setStatus (status : BLegStatus) : CallActor :=
  { call with bLegs := call.bLegs.modify index ({ · with status := status }) }

def setWinner : CallActor :=
  { { call with winner := some index, state := .answered }.setStatus index .answered with
    forkBestFailure := none }

/-- Cancel every pending branch but one, and give back those whose INVITE is stashed. -/
def cancelPendingBranches (keep : Option ℕ) : CallActor × List Leg :=
  let isOver := fun (bLeg : BLeg) (index : ℕ) => some index ≠ keep ∧ bLeg.isPending
  ({ call with
      bLegs := call.bLegs.mapIdx fun index bLeg =>
        if isOver bLeg index then bLeg.cancel else bLeg },
    (call.bLegs.zipIdx.filter fun (bLeg, index) =>
      decide (isOver bLeg index) && bLeg.isStashed).map fun (bLeg, _) => bLeg.leg)

def settleFork : CallActor × BranchSettlement :=
  if call.forkDispatching then (call, {})
  else
    let (call, cancelled) :=
      if call.forkBestFailure.any BranchFailure.declines then call.cancelPendingBranches none
      else (call, [])
    if call.bLegs.any fun bLeg => bLeg.isPending && bLeg.isStashed then (call, { cancelled })
    else
      ({ call with forkBestFailure := none }, { cancelled, failure := call.forkBestFailure })

def betterFailure (held : Option BranchFailure) (failure : BranchFailure) : BranchFailure :=
  match held with
  | none => failure
  | some best =>
    if (ResponseRank.of best.statusCode).lt (ResponseRank.of failure.statusCode) then failure
    else best

def recordBranchFailure (index statusCode : ℕ) (response : SipMessage) :
    CallActor × BranchSettlement :=
  if !call.isPendingBranch index then (call, { alreadySettled := true })
  else
    let failed := call.setStatus index (.failed statusCode)
    if call.state = .answered then (failed, {})
    else
      match call.bLegs[index]? with
      | none => failed.settleFork
      | some bLeg =>
        settleFork
          { failed with
            forkBestFailure :=
              some (betterFailure call.forkBestFailure ⟨bLeg.leg.branch, statusCode, response⟩) }

def finishForkDispatch : CallActor × BranchSettlement :=
  let call := { call with forkDispatching := false }
  if call.state = .answered then
    let (call, cancelled) := call.cancelPendingBranches call.winner
    (call, { cancelled })
  else call.settleFork

/-- On the ring timeout: the failure that is held, if it beats a 408. -/
def settleForkOnTimeout : Option (CallActor × BranchSettlement) :=
  let beatsTimeout := call.forkBestFailure.any fun best =>
    (ResponseRank.of 408).lt (ResponseRank.of best.statusCode)
  if !beatsTimeout then none
  else
    let (cancelledCall, cancelled) := call.cancelPendingBranches none
    some ({ cancelledCall with forkBestFailure := none },
      { cancelled, failure := call.forkBestFailure })

def claimAnswer : CallActor × WinOutcome :=
  if call.state = .answered then (call, .alreadyAnswered)
  else
    let (call, cancelled) := (call.setWinner index).cancelPendingBranches (some index)
    (call, .firstWin cancelled)

end CallActor

/-! ### Ranks -/

/-- A status ranks at least as high as another. -/
def Outranks (code other : ℕ) : Prop :=
  (ResponseRank.of code).lt (ResponseRank.of other) = false

theorem Outranks.refl (code : ℕ) :
  Outranks code code :=
  ResponseRank.lt_irrefl _

variable {code : ℕ}

theorem Outranks.of_lt {best other : ℕ} (h : Outranks best other)
    (hlt : (ResponseRank.of best).lt (ResponseRank.of code)) :
  Outranks code other
  := by
  rw [Outranks, ← Bool.not_eq_true] at *
  exact fun hother => h (ResponseRank.lt_trans hlt hother)

/-! ### Legs -/

namespace BLeg

variable {bLeg : BLeg}

@[simp] theorem branch_cancel (bLeg : BLeg) :
  bLeg.cancel.leg.branch = bLeg.leg.branch
  := by
  rw [cancel]
  split <;> rfl

@[simp] theorem isPending_cancel (bLeg : BLeg) :
  bLeg.cancel.isPending = false
  := by
  simp [cancel, isPending]

theorem not_isPending_of_failed (h : bLeg.status = .failed code) :
  bLeg.isPending = false
  := by
  simp [isPending, h]

end BLeg

/-! ### Settlements -/

namespace CallActor

variable {call : CallActor}

theorem exists_split_of_find {branch : Text} {index : ℕ}
    (h : call.findBLegByBranch branch = some index) :
  ∃ before bLeg after, call.bLegs = before ++ bLeg :: after ∧ before.length = index ∧
    bLeg.leg.branch = branch
  := by
  obtain ⟨hindex, hbranch, -⟩ := List.findIdx?_eq_some_iff_getElem.mp h
  obtain ⟨before, after, hsplit, hlength⟩ :=
    Slice.exists_split_of_getElem? (List.getElem?_eq_getElem hindex)
  exact ⟨before, _, after, hsplit, hlength, by simpa using hbranch⟩

variable {bLeg : BLeg} {keep : Option ℕ}

theorem mem_cancelPendingBranches (h : bLeg ∈ (call.cancelPendingBranches keep).1.bLegs) :
  bLeg ∈ call.bLegs ∨ ∃ old ∈ call.bLegs, old.isPending ∧ bLeg = old.cancel
  := by
  simp only [cancelPendingBranches, mem_mapIdx] at h
  obtain ⟨index, hindex, rfl⟩ := h
  split
  · rename_i hover
    exact .inr ⟨_, getElem_mem hindex, hover.2, rfl⟩
  · exact .inl (getElem_mem hindex)

theorem mem_cancelPendingBranches_of_not_isPending (h : bLeg ∈ call.bLegs)
    (hpending : bLeg.isPending = false) :
  bLeg ∈ (call.cancelPendingBranches keep).1.bLegs
  := by
  simp only [cancelPendingBranches, mem_mapIdx]
  obtain ⟨index, hindex, rfl⟩ := mem_iff_getElem.mp h
  exact ⟨index, hindex, by simp [hpending]⟩

theorem not_isPending_of_mem_cancelAll (h : bLeg ∈ (call.cancelPendingBranches none).1.bLegs) :
  bLeg.isPending = false
  := by
  simp only [cancelPendingBranches, mem_mapIdx] at h
  obtain ⟨index, hindex, rfl⟩ := h
  split
  · exact BLeg.isPending_cancel _
  · rename_i hover
    simpa using hover

theorem mem_cancelled (h : bLeg ∈ call.bLegs) (hpending : bLeg.isPending)
    (hstashed : bLeg.isStashed) :
  bLeg.leg ∈ (call.cancelPendingBranches none).2
  := by
  simp only [cancelPendingBranches, mem_map, mem_filter]
  obtain ⟨index, hindex, rfl⟩ := mem_iff_getElem.mp h
  refine ⟨(call.bLegs[index], index), ⟨?_, ?_⟩, rfl⟩
  · exact mem_zipIdx_iff_getElem?.mpr (by simp [hindex])
  · simp [hpending, hstashed]

theorem cancel_mem_cancelAll (h : bLeg ∈ call.bLegs) (hpending : bLeg.isPending) :
  bLeg.cancel ∈ (call.cancelPendingBranches none).1.bLegs
  := by
  simp only [cancelPendingBranches, mem_mapIdx]
  obtain ⟨index, hindex, rfl⟩ := mem_iff_getElem.mp h
  exact ⟨index, hindex, by simp [hpending]⟩

theorem mem_of_failed (h : bLeg ∈ (call.cancelPendingBranches keep).1.bLegs)
    (hfailed : bLeg.status = .failed code) :
  bLeg ∈ call.bLegs
  := by
  rcases mem_cancelPendingBranches h with h | ⟨old, -, -, rfl⟩
  · exact h
  · cases hfailed

theorem settleFork_cases (hclosed : call.forkDispatching = false) :
  (∃ best, call.forkBestFailure = some best ∧ call.settleFork =
    ({ (call.cancelPendingBranches none).1 with forkBestFailure := none },
      { cancelled := (call.cancelPendingBranches none).2, failure := some best })) ∨
  ((∃ bLeg ∈ call.bLegs, bLeg.isPending ∧ bLeg.isStashed) ∧ call.settleFork = (call, {})) ∨
  ((∀ best, call.forkBestFailure = some best → best.declines = false) ∧
    (∀ bLeg ∈ call.bLegs, bLeg.isPending → bLeg.isStashed = false) ∧
    call.settleFork =
      ({ call with forkBestFailure := none }, { failure := call.forkBestFailure }))
  := by
  by_cases hdeclines : call.forkBestFailure.any BranchFailure.declines
  · obtain ⟨best, hbest⟩ := Option.isSome_iff_exists.mp (Option.isSome_of_any hdeclines)
    refine .inl ⟨best, hbest, ?_⟩
    have hnone : ((call.cancelPendingBranches none).1.bLegs.any fun bLeg =>
        bLeg.isPending && bLeg.isStashed) = false := by
      rw [any_eq_false]
      intro bLeg hmem
      simp [not_isPending_of_mem_cancelAll hmem]
    have hsame : (call.cancelPendingBranches none).1.forkBestFailure = some best := hbest
    simp [settleFork, hclosed, hdeclines, hnone, hsame]
  · have hnot : ∀ best, call.forkBestFailure = some best → best.declines = false := by
      intro best hbest
      simpa [hbest] using hdeclines
    by_cases hrings : (call.bLegs.any fun bLeg => bLeg.isPending && bLeg.isStashed)
    · refine .inr (.inl ⟨by simpa using hrings, ?_⟩)
      simp [settleFork, hclosed, hdeclines, hrings]
    refine .inr (.inr ⟨hnot, ?_, by simp [settleFork, hclosed, hdeclines, hrings]⟩)
    intro bLeg hmem hpending
    rw [Bool.not_eq_true, any_eq_false] at hrings
    simpa [hpending] using hrings bLeg hmem

variable {failure : BranchFailure}

theorem settleFork_declined (hfailure : call.settleFork.2.failure = some failure)
    (hdeclines : failure.declines) :
  ∀ bLeg ∈ call.settleFork.1.bLegs, bLeg.isPending = false
  := by
  intro bLeg hmem
  cases hopen : call.forkDispatching with
  | true => simp [settleFork, hopen] at hfailure
  | false =>
  rcases settleFork_cases hopen with ⟨best, -, hsettle⟩ | ⟨-, hsettle⟩ | ⟨hnot, -, hsettle⟩
  · rw [hsettle] at hmem
    exact not_isPending_of_mem_cancelAll hmem
  · rw [hsettle] at hfailure
    cases hfailure
  · rw [hsettle] at hfailure
    rw [hnot failure hfailure] at hdeclines
    cases hdeclines

theorem recordBranchFailure_eq_settleFork {index statusCode : ℕ} {response : SipMessage}
    (h : (call.recordBranchFailure index statusCode response).2.failure = some failure) :
  ∃ recorded : CallActor,
    call.recordBranchFailure index statusCode response = recorded.settleFork
  := by
  rw [recordBranchFailure] at h ⊢
  split at h
  · cases h
  rw [if_neg ‹_›]
  split at h
  · cases h
  rw [if_neg ‹_›]
  split
  · exact ⟨_, rfl⟩
  · exact ⟨_, rfl⟩

theorem settleForkOnTimeout_eq_some {after : CallActor × BranchSettlement}
    (h : call.settleForkOnTimeout = some after) :
  ∃ best, call.forkBestFailure = some best ∧ after =
    ({ (call.cancelPendingBranches none).1 with forkBestFailure := none },
      { cancelled := (call.cancelPendingBranches none).2, failure := some best })
  := by
  rw [settleForkOnTimeout] at h
  cases hbest : call.forkBestFailure with
  | none => simp [hbest] at h
  | some best =>
  simp only [hbest] at h
  split at h
  · cases h
  · cases h
    exact ⟨best, rfl, rfl⟩

end CallActor

end Siphon.B2bua
