import Siphon.B2bua.ForkStages

/-!
# A fork concludes once

A fork is concluded by one answer or by one failure, if no branch is sent after the call has failed,
the branches on the wire are stashed when the dispatch window closes or one of them fails outside
it, and no branch answers after it failed.
-/

namespace Siphon.B2bua

open List CallActor ForkState

namespace ForkState

variable {state : ForkState}

/-! ### Concluded calls -/

/-- An answered call stays answered by its winner, whatever happens. -/
theorem Answered.next {branch : Text} (h : state.Answered branch) (input : ForkInput) :
  (state.next input).Answered branch
  := by
  obtain ⟨bLeg, hmem, hsent, hstatus⟩ := h.winner
  have hpending : bLeg.isPending = false := by simp [BLeg.isPending, hstatus]
  cases input with
  | add leg =>
    exact ⟨h.conclusions, h.answered, h.best, bLeg, mem_append_left _ hmem, hsent, hstatus⟩
  | send branch =>
    exact ⟨h.conclusions, h.answered, h.best, bLeg, hmem, mem_append_left _ hsent, hstatus⟩
  | stash branch invite =>
    simp only [ForkState.next, ForkState.stash]
    split
    · exact h
    refine ⟨h.conclusions, h.answered, h.best, ?_⟩
    rcases Slice.mem_modify hmem _ _ with hmem | ⟨-, hmem⟩
    · exact ⟨_, hmem, hsent, hstatus⟩
    · exact ⟨_, hmem, hsent, hstatus⟩
  | provisional branch =>
    simp only [ForkState.next, tryMarkRinging, h.answered, reduceCtorEq, if_false, ite_self]
    exact h
  | success branch =>
    simp only [ForkState.next, tryWinOn, claimAnswer, h.answered, if_true]
    split
    · split <;> exact h
    · exact h
  | failure branch statusCode response =>
    simp only [ForkState.next]
    split
    · rw [recordBranchFailureOn]
      split
      · exact h
      rename_i index _
      rw [recordBranchFailure]
      split
      · rw [settled_of_none rfl rfl]
        exact h
      rename_i hbranch
      rw [if_pos h.answered, settled_of_none rfl rfl]
      refine ⟨h.conclusions, h.answered, h.best, bLeg, ?_, hsent, hstatus⟩
      refine (Slice.mem_modify hmem index _).resolve_right ?_
      rintro ⟨hget, -⟩
      simp [isPendingBranch, hget, hpending] at hbranch
    · exact h
  | startForkDispatch => exact ⟨h.conclusions, h.answered, h.best, h.winner⟩
  | finishForkDispatch =>
    simp only [ForkState.next, finishForkDispatch, h.answered, if_true]
    refine ⟨by simp [settled, h.conclusions], rfl, h.best, bLeg, ?_, hsent, hstatus⟩
    exact mem_cancelPendingBranches_of_not_isPending hmem hpending
  | ringTimeout =>
    simp only [ForkState.next, ForkState.ringTimeout, h.answered, reduceCtorEq, or_self, if_false]
    exact h

variable {failure : BranchFailure}

theorem Failed.of_reaches (h : state.Failed failure) {bLeg : BLeg} (hmem : bLeg ∈ state.call.bLegs)
    (hreaches : state.reaches bLeg.leg.branch) :
  ∃ code, bLeg.status = .failed code
  := by
  simp only [reaches, contains_eq_mem, Bool.and_eq_true, Bool.not_eq_true',
    decide_eq_true_eq, decide_eq_false_iff_not] at hreaches
  exact (h.ended bLeg hmem hreaches.1).resolve_right hreaches.2

theorem Failed.add (h : state.Failed failure) {leg : Leg} (hunsent : leg.branch ∉ state.sent) :
  (state.next (.add leg)).Failed failure
  := by
  refine ⟨h.conclusions, h.unanswered, h.best, ?_,
    h.occurs.mono fun _ hmem _ _ => mem_append_left _ hmem, ?_⟩
  · intro bLeg hmem hsent
    rcases mem_append.mp hmem with hmem | hmem
    · exact h.ended bLeg hmem hsent
    · rw [mem_singleton.mp hmem] at hsent
      exact absurd hsent hunsent
  · intro bLeg hmem code hcode
    rcases mem_append.mp hmem with hmem | hmem
    · exact h.outranks bLeg hmem code hcode
    · rw [mem_singleton.mp hmem] at hcode
      cases hcode

theorem Failed.stash (h : state.Failed failure) (branch : Text) (invite : StashedInvite) :
  (state.next (.stash branch invite)).Failed failure
  := by
  simp only [ForkState.next, ForkState.stash]
  cases hfind : state.call.findBLegByBranch branch with
  | none => exact h
  | some index =>
  refine ⟨h.conclusions, h.unanswered, h.best, ?_, ?_, ?_⟩
  · intro bLeg hmem hsent
    have hended : (∃ code, bLeg.status = .failed code) ∨ bLeg.leg.branch ∈ state.kept := by
      rcases Slice.of_mem_modify hmem with hold | ⟨old, hold, rfl⟩
      · exact h.ended bLeg hold hsent
      · exact h.ended old hold hsent
    refine hended.imp_right fun hkept => ?_
    dsimp only
    split
    · exact mem_append_left _ hkept
    · exact hkept
  · obtain ⟨bLeg, hmem, hbranch, hstatus⟩ := h.occurs
    rcases Slice.mem_modify hmem _ _ with hmem | ⟨-, hmem⟩
    · exact ⟨_, hmem, hbranch, hstatus⟩
    · exact ⟨_, hmem, hbranch, hstatus⟩
  · intro bLeg hmem code hcode
    rcases Slice.of_mem_modify hmem with hold | ⟨old, hold, rfl⟩
    · exact h.outranks bLeg hold code hcode
    · exact h.outranks old hold code hcode

variable {branch : Text} {index : ℕ}

/-- A branch whose response reaches a failed call is one that has failed. -/
theorem Failed.of_find (h : state.Failed failure) (hreaches : state.reaches branch)
    (hfind : state.call.findBLegByBranch branch = some index) :
  ∃ bLeg ∈ state.call.bLegs, state.call.bLegs[index]? = some bLeg ∧ bLeg.leg.branch = branch ∧
    ∃ code, bLeg.status = .failed code
  := by
  obtain ⟨before, bLeg, after, hlegs, rfl, rfl⟩ := exists_split_of_find hfind
  have hmem : bLeg ∈ state.call.bLegs := by simp [hlegs]
  exact ⟨bLeg, hmem, by simp [hlegs], rfl, h.of_reaches hmem hreaches⟩

theorem Failed.success (h : state.Failed failure) (hreaches : state.reaches branch)
    (horderly : state.Orderly (.success branch)) :
  (state.tryWinOn branch).Failed failure
  := by
  rw [tryWinOn]
  cases hfind : state.call.findBLegByBranch branch with
  | none => exact h
  | some index =>
  obtain ⟨bLeg, hmem, -, hbranch, code, hcode⟩ := h.of_find hreaches hfind
  exact absurd hcode (horderly bLeg hmem hbranch code)

theorem Failed.fail (h : state.Failed failure) (hreaches : state.reaches branch)
    (statusCode : ℕ) (response : SipMessage) :
  (state.recordBranchFailureOn branch statusCode response).Failed failure
  := by
  rw [recordBranchFailureOn]
  cases hfind : state.call.findBLegByBranch branch with
  | none => exact h
  | some index =>
  obtain ⟨bLeg, -, hget, -, code, hcode⟩ := h.of_find hreaches hfind
  have hfinished : state.call.isPendingBranch index = false := by
    simp [isPendingBranch, hget, BLeg.not_isPending_of_failed hcode]
  simp only [recordBranchFailure, hfinished, Bool.not_false, if_true]
  rw [settled_of_none rfl rfl]
  exact h

variable {input : ForkInput}

/-- A call that failed is not concluded again. -/
theorem Failed.next (h : state.Failed failure) (horderly : state.Orderly input)
    (hinput : input ≠ .ringTimeout) :
  (state.next input).Failed failure
  := by
  cases input with
  | add leg => exact h.add horderly.2.1
  | send branch =>
    refine absurd ?_ (horderly failure)
    simp [h.conclusions]
  | stash branch invite => exact h.stash branch invite
  | provisional branch =>
    simp only [next, tryMarkRinging]
    split
    · split
      · exact ⟨h.conclusions, by simp, h.best, h.ended, h.occurs, h.outranks⟩
      · exact h
    · exact h
  | success branch =>
    simp only [next]
    split
    · rename_i hreaches
      exact h.success hreaches horderly
    · exact h
  | failure branch statusCode response =>
    simp only [next]
    split
    · rename_i hreaches
      exact h.fail hreaches statusCode response
    · exact h
  | startForkDispatch =>
    exact ⟨h.conclusions, h.unanswered, h.best, h.ended, h.occurs, h.outranks⟩
  | finishForkDispatch =>
    simp only [next, finishForkDispatch, if_neg h.unanswered]
    have hsettle : ({ state.call with forkDispatching := false } : CallActor).settleFork =
        ({ state.call with forkDispatching := false }, {}) := by
      simp [settleFork, h.best]
    rw [hsettle, settled_of_none rfl rfl]
    exact ⟨h.conclusions, h.unanswered, h.best, h.ended, h.occurs, h.outranks⟩
  | ringTimeout => exact absurd rfl hinput

theorem Failed.timeout (h : state.Failed failure) :
  state.ringTimeout.ConcludedOnce
  := by
  rw [ringTimeout]
  split
  · have hsettle : state.call.settleForkOnTimeout = none := by
      simp [settleForkOnTimeout, h.best]
    rw [hsettle]
    constructor
    · simp [keepAnswerable, h.conclusions]
    rintro - - -
    refine ⟨failure, h.conclusions, h.occurs.cancelAll, ?_⟩
    intro bLeg hmem code hcode
    exact h.outranks bLeg (mem_of_failed hmem hcode) code hcode
  · exact h.concludedOnce

/-- An orderly step leads from a stage to a stage. -/
theorem Stage.next (h : state.Stage) (horderly : state.Orderly input)
    (hinput : input ≠ .ringTimeout) :
  (state.next input).Stage
  := by
  cases h with
  | undecided h =>
    cases input with
    | add leg => exact .undecided (h.add horderly)
    | send branch => exact .undecided (h.send branch)
    | stash branch invite => exact .undecided (h.stash invite horderly)
    | provisional branch =>
      simp only [next]
      split
      · exact .undecided h.provisional
      · exact .undecided h
    | success branch =>
      simp only [next]
      split
      · rename_i hreaches
        exact h.success (mem_sent_of_reaches hreaches)
      · exact .undecided h
    | failure branch statusCode response =>
      simp only [next]
      split
      · exact h.failure horderly
      · exact .undecided h
    | startForkDispatch => exact .undecided h.start
    | finishForkDispatch => exact h.finish horderly
    | ringTimeout => exact absurd rfl hinput
  | answered h => exact .answered (h.next input)
  | failed h => exact .failed (h.next horderly hinput)

theorem Stage.timeout (h : state.Stage) :
  state.ringTimeout.ConcludedOnce
  := by
  cases h with
  | undecided h => exact h.timeout
  | answered h => exact (h.next .ringTimeout).concludedOnce
  | failed h => exact h.timeout

theorem ringTimeout_eq_self (h : state.ringTimeout.finished = false) :
  state.ringTimeout = state
  := by
  by_cases hearly : state.call.state = .calling ∨ state.call.state = .ringing
  · rw [ringTimeout, if_pos hearly] at h
    split at h <;> cases h
  · rw [ringTimeout, if_neg hearly]

/-- The calls of a run that are not over are at a stage, and all are concluded at most once. -/
structure Sound (state : ForkState) : Prop where
  concludedOnce : state.ConcludedOnce
  stage : state.finished = false → state.Stage

/-- An orderly input keeps the fork sound. -/
theorem Sound.step (h : state.Sound) (horderly : state.Orderly input) :
  (forkMachine.step state input).1.Sound
  := by
  cases hfinished : state.finished with
  | true => simpa [forkMachine, hfinished] using h
  | false =>
  simp only [forkMachine, hfinished, Bool.false_eq_true, if_false]
  have hstage := h.stage hfinished
  by_cases hinput : input = .ringTimeout
  · subst hinput
    refine ⟨hstage.timeout, fun hgoes => ?_⟩
    have hsame : state.next .ringTimeout = state := ringTimeout_eq_self hgoes
    rwa [hsame]
  · have hnext := hstage.next horderly hinput
    exact ⟨hnext.concludedOnce, fun _ => hnext⟩

theorem undecided_new (id : Text) (aLeg : Leg) :
  (new id aLeg).Undecided
  := by
  have hlegs : (new id aLeg).call.bLegs = [] := rfl
  have hbest : (new id aLeg).call.forkBestFailure = none := rfl
  refine ⟨⟨rfl, ?_, rfl, .nil, ?_, ?_, ?_, ?_, ?_, ?_⟩, ?_⟩
  · simp [new]
  all_goals simp [hlegs, hbest]

/-! ### A 6xx -/

theorem failure_of_settled {after : CallActor × BranchSettlement}
    (h : (state.settled after).conclusions = state.conclusions ++ [.failed failure]) :
  after.2.failure = some failure
  := by
  cases hfailure : after.2.failure with
  | none => simp [settled, hfailure] at h
  | some handed => simpa [settled, hfailure] using h

/-- A step that hands a 6xx over leaves no branch pending. -/
theorem next_declined (h : (state.next input).conclusions = state.conclusions ++ [.failed failure])
    (hdeclines : failure.declines) :
  ∀ bLeg ∈ (state.next input).call.bLegs, bLeg.isPending = false
  := by
  cases input with
  | add | send | startForkDispatch => simp [next] at h
  | stash branch invite =>
    simp only [next, stash] at h
    split at h <;> simp at h
  | provisional branch =>
    simp only [next, tryMarkRinging] at h
    split at h
    · split at h <;> simp at h
    · simp at h
  | success branch =>
    simp only [next, tryWinOn] at h
    split at h
    · split at h
      · simp at h
      · split at h <;> simp at h
    · simp at h
  | failure branch statusCode response =>
    simp only [next, recordBranchFailureOn] at h ⊢
    split at h
    · cases hfind : state.call.findBLegByBranch branch with
      | none => simp [hfind] at h
      | some index =>
      rw [hfind] at h
      rw [if_pos ‹_›]
      have hfailure := failure_of_settled h
      obtain ⟨recorded, hsettle⟩ := recordBranchFailure_eq_settleFork hfailure
      dsimp only [settled, keepAnswerable]
      rw [hsettle] at hfailure ⊢
      exact settleFork_declined hfailure hdeclines
    · simp at h
  | finishForkDispatch =>
    have hfailure := failure_of_settled h
    dsimp only [next, settled, keepAnswerable]
    rw [finishForkDispatch] at hfailure ⊢
    split at hfailure
    · cases hfailure
    · rw [if_neg ‹_›]
      exact settleFork_declined hfailure hdeclines
  | ringTimeout =>
    simp only [next, ringTimeout] at h ⊢
    split at h
    · rw [if_pos ‹_›]
      cases hsettle : state.call.settleForkOnTimeout with
      | none => simp [hsettle, keepAnswerable] at h
      | some after =>
      obtain ⟨best, -, rfl⟩ := settleForkOnTimeout_eq_some hsettle
      exact fun bLeg hmem => not_isPending_of_mem_cancelAll hmem
    · simp at h

theorem step_declined
    (h : (forkMachine.step state input).1.conclusions = state.conclusions ++ [.failed failure])
    (hdeclines : failure.declines) :
  ∀ bLeg ∈ (forkMachine.step state input).1.call.bLegs, bLeg.isPending = false
  := by
  cases hfinished : state.finished with
  | true => simp [forkMachine, hfinished] at h
  | false =>
  simp only [forkMachine, hfinished, Bool.false_eq_true, if_false] at h ⊢
  exact next_declined h hdeclines

end ForkState

/-! ### Runs -/

/-- A fork whose steps are orderly concludes once; and in any run, a step that hands a 6xx over
leaves no branch pending. -/
theorem fork_concludes_once (id : Text) (aLeg : Leg) (inputs : List ForkInput) :
  let run := forkMachine.run (ForkState.new id aLeg)
  ((∀ before input, before ++ [input] <+: inputs → (run before).Orderly input) →
    (run inputs).ConcludedOnce) ∧
  ∀ before input failure, before ++ [input] <+: inputs →
    (run (before ++ [input])).conclusions = (run before).conclusions ++ [.failed failure] →
    failure.declines →
    ∀ bLeg ∈ (run (before ++ [input])).call.bLegs, bLeg.isPending = false
  := by
  intro run
  constructor
  · intro horderly
    have hnew := ForkState.Stage.undecided (ForkState.undecided_new id aLeg)
    have hsound := @Machine.logged_of_allowed _ _ _ forkMachine (fun _ state => state.Sound)
      ForkState.Orderly (fun _ _ _ hinput h => h.step hinput) _ ⟨hnew.concludedOnce, fun _ => hnew⟩
      inputs horderly
    exact hsound.concludedOnce
  · intro before input failure _ hconclusions hdeclines
    have hrun : run (before ++ [input]) = (forkMachine.step (run before) input).1 :=
      Machine.run_append _ _ before [input]
    rw [hrun] at hconclusions ⊢
    exact ForkState.step_declined hconclusions hdeclines

def busyHere : SipMessage :=
  ⟨.response ⟨.sip20, 486, "Busy Here".toList, false⟩, .new, []⟩

/-- Two branches that are dialled without a dispatch window: the first is busy before the second is
added. -/
def dialledApart : List ForkInput :=
  let leg (branch : Text) : Leg := { id := branch, side := .b, branch, callId := "c".toList }
  [.add (leg "a".toList), .send "a".toList, .stash "a".toList ⟨none⟩,
    .failure "a".toList 486 busyHere,
    .add (leg "b".toList), .send "b".toList, .stash "b".toList ⟨none⟩, .success "b".toList]

/-- The call that is dialled so fails, and is answered after it. -/
theorem dialledApart_concludes_twice :
  let caller : Leg := { id := "caller".toList, side := .a, branch := [], callId := [] }
  (forkMachine.run (ForkState.new "call".toList caller) dialledApart).conclusions =
    [.failed ⟨"a".toList, 486, busyHere⟩, .answered "b".toList]
  := by
  decide +kernel

end Siphon.B2bua
