import Siphon.B2bua.Call
import Siphon.Library.Run

/-!
# The lists of the legs of a call

A call keeps its callees in three lists, one of the legs, one of their statuses and one of the
handles of their actors, and its winner as an index into them.  The winner is set for the leg whose
branch answers, found in the lists it is an index of.
-/

namespace Siphon.B2bua

open List

/-- The lists of a call, whatever the handle of an actor is. -/
structure CallLists (β : Type) where
  aLeg : Leg
  bLegs : List Leg := []
  bLegStatus : List BLegStatus := []
  bLegHandles : List (Option β) := []
  winner : Option ℕ := none
  state : CallState := .calling

/-- A change of the lists, or of the state of the call. -/
inductive LegChange where
  | add (leg : Leg)
  | remove (index : ℕ)
  | replace (index : ℕ) (leg : Leg)
  | adopt (replacedOnALeg : Bool) (newLeg : Leg)
  | tryWinOn (branch : Text)
  | transitionTo (state : CallState)

namespace CallLists

variable {β : Type} (call : CallLists β)

def addBLeg (leg : Leg) : CallLists β :=
  { call with
    bLegs := call.bLegs ++ [leg]
    bLegStatus := call.bLegStatus ++ [.trying]
    bLegHandles := call.bLegHandles ++ [none] }

variable (index : ℕ)

def removeBLeg : CallLists β :=
  if index < call.bLegs.length then
    { call with
      bLegs := call.bLegs.eraseIdx index
      bLegStatus := call.bLegStatus.eraseIdx index
      bLegHandles := call.bLegHandles.eraseIdx index
      winner :=
        if call.winner = some index then none
        else call.winner.map fun winner => if index < winner then winner - 1 else winner }
  else call

/-- Supersede a leg by its retry, which is the same leg to the control plane. -/
def replaceBLeg (leg : Leg) : CallLists β :=
  match call.bLegs[index]? with
  | none => call
  | some superseded =>
    { call with
      bLegs := call.bLegs.set index { leg with id := superseded.id }
      bLegStatus := call.bLegStatus.set index .trying
      bLegHandles := call.bLegHandles.set index none }

def winningBLeg : Option Leg :=
  call.winner.bind (call.bLegs[·]?)

/-- Rebuild the call around the new party and the one that is left. -/
def adoptReplacedDialog (replacedOnALeg : Bool) (newLeg : Leg) : CallLists β :=
  match call.winningBLeg with
  | none => call
  | some winning =>
    { aLeg := newLeg
      bLegs := [if replacedOnALeg then winning else call.aLeg]
      bLegStatus := [.answered]
      bLegHandles := [none]
      winner := some 0
      state := .answered }

def findBLegByBranch (branch : Text) : Option ℕ :=
  call.bLegs.findIdx? (·.branch = branch)

def isPendingBranch : Bool :=
  match call.bLegs[index]?, call.bLegStatus[index]? with
  | some leg, some status => BLeg.isPending ⟨leg, status⟩
  | _, _ => false

def setWinner : CallLists β :=
  { call with
    winner := some index
    state := .answered
    bLegStatus := call.bLegStatus.set index .answered }

/-- Cancel every pending branch but one: at once if its INVITE is stashed, as soon as it is
otherwise. -/
def cancelPendingBranches (keep : Option ℕ) : CallLists β :=
  let isOver := fun (index : ℕ) => some index ≠ keep ∧ call.isPendingBranch index
  { call with
    bLegs := call.bLegs.mapIdx fun index leg =>
      if isOver index ∧ leg.bLegInvite = none then { leg with pendingCancel := true } else leg
    bLegStatus := call.bLegStatus.mapIdx fun index status =>
      if isOver index then .cancelled else status }

def claimAnswer : CallLists β :=
  if call.state = .answered then call
  else (call.setWinner index).cancelPendingBranches (some index)

/-- Claim the answer for the leg of a branch, if it is still there. -/
def tryWinOn (branch : Text) : CallLists β :=
  match call.findBLegByBranch branch with
  | none => call
  | some index => call.claimAnswer index

/-- The lists under any changes. -/
def machine : Machine (CallLists β) LegChange Empty where
  step call
    | .add leg => (call.addBLeg leg, [])
    | .remove index => (call.removeBLeg index, [])
    | .replace index leg => (call.replaceBLeg index leg, [])
    | .adopt replacedOnALeg newLeg => (call.adoptReplacedDialog replacedOnALeg newLeg, [])
    | .tryWinOn branch => (call.tryWinOn branch, [])
    | .transitionTo state => ({ call with state }, [])

/-- The lists have one length. -/
def Aligned : Prop :=
  call.bLegStatus.length = call.bLegs.length ∧ call.bLegHandles.length = call.bLegs.length

def InRange : Prop :=
  ∀ winner, call.winner = some winner → winner < call.bLegs.length

/-- A change removes or supersedes the leg that won, or lets another win. -/
def Ends : LegChange → Prop
  | .add _ | .transitionTo _ => False
  | .remove index | .replace index _ => call.winner = some index
  | .adopt replacedOnALeg _ => replacedOnALeg = false
  | .tryWinOn branch => call.state ≠ .answered ∧ call.findBLegByBranch branch ≠ none

/-- Every change keeps the lists at one length. -/
theorem aligned_invariant :
  (machine (β := β)).Invariant Aligned
  := by
  rintro call change ⟨hstatus, hhandles⟩
  cases change with
  | add leg => simp [machine, addBLeg, Aligned, hstatus, hhandles]
  | remove index =>
    simp only [machine, removeBLeg]
    split <;> simp [Aligned, length_eraseIdx, hstatus, hhandles]
  | replace index leg =>
    simp only [machine, replaceBLeg]
    split <;> simp [Aligned, hstatus, hhandles]
  | adopt replacedOnALeg newLeg =>
    simp only [machine, adoptReplacedDialog]
    split <;> simp [Aligned, hstatus, hhandles]
  | tryWinOn branch =>
    simp only [machine, tryWinOn, claimAnswer]
    split
    · exact ⟨hstatus, hhandles⟩
    split <;> simp [cancelPendingBranches, setWinner, Aligned, hstatus, hhandles]
  | transitionTo state => exact ⟨hstatus, hhandles⟩

/-- Every change keeps the winner in range: one that is set is the index of a leg that was found. -/
theorem inRange_invariant :
  (machine (β := β)).Invariant InRange
  := by
  intro call change h
  cases change with
  | add leg =>
    intro winner hwinner
    exact (h winner hwinner).trans_le (by simp [machine, addBLeg])
  | remove index =>
    simp only [machine, removeBLeg]
    split
    · simp only [InRange, length_eraseIdx] at h ⊢
      cases hwinner : call.winner with
      | none => simp
      | some winner => grind
    · exact h
  | replace index leg =>
    simp only [machine, replaceBLeg]
    split
    · exact h
    · intro winner hwinner
      rw [length_set]
      exact h winner hwinner
  | adopt replacedOnALeg newLeg =>
    simp only [machine, adoptReplacedDialog]
    split
    · exact h
    · simp [InRange]
  | tryWinOn branch =>
    simp only [machine, tryWinOn, claimAnswer]
    split
    · exact h
    rename_i index hfind
    obtain ⟨hindex, -⟩ := findIdx?_eq_some_iff_getElem.mp hfind
    split
    · exact h
    · simpa [InRange, cancelPendingBranches, setWinner] using hindex
  | transitionTo state => exact h

variable {call}

/-- The winning leg stays until a change ends it. -/
theorem winningBLeg_step (h : call.InRange) {change : LegChange} (hstays : ¬ call.Ends change) :
  (machine.step call change).1.winningBLeg = call.winningBLeg
  := by
  cases change with
  | add leg =>
    cases hwinner : call.winner with
    | none => simp [machine, addBLeg, winningBLeg, hwinner]
    | some winner =>
      simp [machine, addBLeg, winningBLeg, hwinner, getElem?_append_left (h winner hwinner)]
  | remove index =>
    simp only [machine, removeBLeg, Ends] at hstays ⊢
    split
    · cases hwinner : call.winner with
      | none => simp [winningBLeg, hwinner]
      | some winner =>
        -- A winner behind the leg that goes moves up with its leg.
        simp only [winningBLeg, hwinner, getElem?_eraseIdx] at hstays ⊢
        grind
    · rfl
  | replace index leg =>
    simp only [machine, replaceBLeg]
    split
    · rfl
    · cases hwinner : call.winner with
      | none => simp [winningBLeg, hwinner]
      | some winner =>
        have hne : index ≠ winner := by
          rintro rfl
          exact hstays hwinner
        simp [winningBLeg, hwinner, getElem?_set_ne hne]
  | adopt replacedOnALeg newLeg =>
    have hsame : replacedOnALeg = true := by simpa [Ends] using hstays
    simp only [machine, adoptReplacedDialog]
    split
    · rfl
    · rename_i winning hwinning
      simp [winningBLeg, hsame] at hwinning ⊢
      exact hwinning.symm
  | tryWinOn branch =>
    simp only [machine, tryWinOn, claimAnswer]
    cases hfind : call.findBLegByBranch branch with
    | none => rfl
    | some index =>
      have hanswered : call.state = .answered := by simpa [Ends, hfind] using hstays
      simp [hanswered]
  | transitionTo state => rfl

/-- The leg of a branch that wins is the winning leg. -/
theorem winningBLeg_tryWinOn {branch : Text} {index : ℕ} (hopen : call.state ≠ .answered)
    (hfind : call.findBLegByBranch branch = some index) :
  (machine.step call (.tryWinOn branch)).1.winningBLeg = call.bLegs[index]?
  := by
  simp only [machine, tryWinOn, hfind, claimAnswer, if_neg hopen]
  simp [winningBLeg, cancelPendingBranches, setWinner]

end CallLists

open CallLists

/-- Under any changes the lists of a call keep one length and its winner is in range; a winner that
is set is the leg whose branch answered, and stays that leg until it is removed or superseded or
another wins. -/
theorem leg_lists_aligned {β : Type} (aLeg : Leg) (changes : List LegChange) :
  let call : CallLists β := machine.run { aLeg } changes
  call.Aligned ∧ call.InRange
    ∧ (∀ branch index, call.state ≠ .answered → call.findBLegByBranch branch = some index →
      (machine.step call (.tryWinOn branch)).1.winningBLeg = call.bLegs[index]?)
    ∧ ∀ later,
      (∀ before change, before ++ [change] <+: later → ¬ (machine.run call before).Ends change) →
      (machine.run call later).winningBLeg = call.winningBLeg
  := by
  intro call
  have hrange : call.InRange := inRange_invariant.run (by simp [InRange]) changes
  refine ⟨aligned_invariant.run ⟨rfl, rfl⟩ changes, hrange,
    fun branch index => winningBLeg_tryWinOn, ?_⟩
  intro later hstays
  have hkeeps := @Machine.logged_of_allowed _ _ _ machine
    (fun _ s => s.InRange ∧ s.winningBLeg = call.winningBLeg) (fun s change => ¬ s.Ends change)
    ?_ _ ⟨hrange, rfl⟩ later hstays
  · exact hkeeps.2
  · rintro _ s change hstay ⟨h, hsame⟩
    exact ⟨inRange_invariant s change h, (winningBLeg_step h hstay).trans hsame⟩

end Siphon.B2bua
