import Siphon.B2bua.Fork

/-!
# The stages of a fork

A fork that is dialled in order is undecided, answered or failed.
-/

namespace Siphon.B2bua

open List CallActor

namespace ForkState

/-- The steps of a fork that is dialled in order. -/
def Orderly (state : ForkState) : ForkInput → Prop
  /- A branch is new, and neither sent nor stashed yet. -/
  | .add leg => leg.branch ∉ state.call.bLegs.map (·.leg.branch) ∧ leg.branch ∉ state.sent ∧
    leg.bLegInvite = none ∧ leg.pendingCancel = false ∧ leg.isTrackingLeg = false
  /- No branch is sent after the call has failed. -/
  | .send _ => ∀ failure, .failed failure ∉ state.conclusions
  | .stash branch _ => branch ∈ state.sent
  /- A branch that failed does not answer. -/
  | .success branch => ∀ bLeg ∈ state.call.bLegs, bLeg.leg.branch = branch →
    ∀ code, bLeg.status ≠ .failed code
  /- Outside the window, a branch fails when all others sent that may answer are stashed. -/
  | .failure branch _ _ => state.call.forkDispatching = false → ∀ bLeg ∈ state.call.bLegs,
    bLeg.leg.branch ∈ state.sent → bLeg.isPending → bLeg.leg.branch ≠ branch → bLeg.isStashed
  /- The window closes when all that was sent is stashed. -/
  | .finishForkDispatch => ∀ bLeg ∈ state.call.bLegs, bLeg.leg.branch ∈ state.sent → bLeg.isStashed
  | _ => True

/-- A failure is that of a leg. -/
def FailedOn (failure : BranchFailure) (bLegs : List BLeg) : Prop :=
  ∃ bLeg ∈ bLegs, bLeg.leg.branch = failure.branch ∧ bLeg.status = .failed failure.statusCode

/-- The failure that is held is the best among those of the legs. -/
structure HoldsBest (best : Option BranchFailure) (bLegs : List BLeg) : Prop where
  outranks : ∀ bLeg ∈ bLegs, ∀ code, bLeg.status = .failed code →
    ∃ failure, best = some failure ∧ Outranks failure.statusCode code
  occurs : ∀ failure, best = some failure → FailedOn failure bLegs

/-- A fork nobody has answered, with what is held not settled yet. -/
structure Unsettled (state : ForkState) : Prop where
  conclusions : state.conclusions = []
  unanswered : state.call.state ≠ .answered
  kept : state.kept = []
  nodup : (state.call.bLegs.map (·.leg.branch)).Nodup
  notTracking : ∀ bLeg ∈ state.call.bLegs, bLeg.leg.isTrackingLeg = false
  noCancel : ∀ bLeg ∈ state.call.bLegs, bLeg.leg.pendingCancel = false
  stashed : ∀ bLeg ∈ state.call.bLegs, bLeg.isStashed → bLeg.leg.branch ∈ state.sent
  status : ∀ bLeg ∈ state.call.bLegs, bLeg.isPending ∨ ∃ code, bLeg.status = .failed code
  best : HoldsBest state.call.forkBestFailure state.call.bLegs

/-- A fork nobody has answered. -/
structure Undecided (state : ForkState) : Prop extends Unsettled state where
  rings : state.call.forkDispatching = false → state.call.forkBestFailure ≠ none →
    ∃ bLeg ∈ state.call.bLegs, bLeg.isPending ∧ bLeg.isStashed

structure Answered (state : ForkState) (branch : Text) : Prop where
  conclusions : state.conclusions = [.answered branch]
  answered : state.call.state = .answered
  best : state.call.forkBestFailure = none
  winner : ∃ bLeg ∈ state.call.bLegs, bLeg.leg.branch ∈ state.sent ∧ bLeg.status = .answered

structure Failed (state : ForkState) (failure : BranchFailure) : Prop where
  conclusions : state.conclusions = [.failed failure]
  unanswered : state.call.state ≠ .answered
  best : state.call.forkBestFailure = none
  ended : ∀ bLeg ∈ state.call.bLegs, bLeg.leg.branch ∈ state.sent →
    (∃ code, bLeg.status = .failed code) ∨ bLeg.leg.branch ∈ state.kept
  occurs : FailedOn failure state.call.bLegs
  outranks : ∀ bLeg ∈ state.call.bLegs, ∀ code, bLeg.status = .failed code →
    Outranks failure.statusCode code

inductive Stage (state : ForkState) : Prop where
  | undecided (h : state.Undecided)
  | answered {branch : Text} (h : state.Answered branch)
  | failed {failure : BranchFailure} (h : state.Failed failure)

/-- The call is concluded at most once; and if the window is closed and every branch on the wire has
failed, by the failure of a branch that no other outranks. -/
structure ConcludedOnce (state : ForkState) : Prop where
  once : state.conclusions.length ≤ 1
  failure : state.call.forkDispatching = false →
    (∃ bLeg ∈ state.call.bLegs, bLeg.leg.branch ∈ state.sent) →
    (∀ bLeg ∈ state.call.bLegs, bLeg.leg.branch ∈ state.sent →
      ∃ code, bLeg.status = .failed code) →
    ∃ failure, state.conclusions = [.failed failure] ∧ FailedOn failure state.call.bLegs ∧
      ∀ bLeg ∈ state.call.bLegs, ∀ code, bLeg.status = .failed code →
        Outranks failure.statusCode code

variable {state : ForkState}

theorem Undecided.concludedOnce (h : state.Undecided) :
  state.ConcludedOnce
  := by
  constructor
  · simp [h.conclusions]
  rintro hclosed ⟨bLeg, hmem, hsent⟩ hfailed
  obtain ⟨code, hcode⟩ := hfailed bLeg hmem hsent
  obtain ⟨failure, hbest, -⟩ := h.best.outranks bLeg hmem code hcode
  obtain ⟨ringing, hringing, hpending, hstashed⟩ := h.rings hclosed (by simp [hbest])
  obtain ⟨code, hcode⟩ := hfailed ringing hringing (h.stashed ringing hringing hstashed)
  rw [BLeg.not_isPending_of_failed hcode] at hpending
  cases hpending

variable {branch : Text}

theorem Answered.concludedOnce (h : state.Answered branch) :
  state.ConcludedOnce
  := by
  constructor
  · simp [h.conclusions]
  rintro - - hfailed
  obtain ⟨bLeg, hmem, hsent, hstatus⟩ := h.winner
  obtain ⟨code, hcode⟩ := hfailed bLeg hmem hsent
  rw [hstatus] at hcode
  cases hcode

theorem Failed.concludedOnce {failure : BranchFailure} (h : state.Failed failure) :
  state.ConcludedOnce
  := by
  constructor
  · simp [h.conclusions]
  · rintro - - -
    exact ⟨failure, h.conclusions, h.occurs, h.outranks⟩

theorem Stage.concludedOnce (h : state.Stage) :
  state.ConcludedOnce
  := by
  cases h with
  | undecided h => exact h.concludedOnce
  | answered h => exact h.concludedOnce
  | failed h => exact h.concludedOnce

/-! ### Settling -/

variable {after : CallActor × BranchSettlement}

theorem settled_of_none (hcancelled : after.2.cancelled = []) (hfailure : after.2.failure = none) :
  state.settled after = { state with call := after.1 }
  := by
  simp [settled, keepAnswerable, hcancelled, hfailure]

theorem FailedOn.mono {failure : BranchFailure} {bLegs bLegs' : List BLeg}
    (h : FailedOn failure bLegs)
    (hkept : ∀ bLeg ∈ bLegs, ∀ code, bLeg.status = .failed code → bLeg ∈ bLegs') :
  FailedOn failure bLegs'
  := by
  obtain ⟨bLeg, hmem, hbranch, hstatus⟩ := h
  exact ⟨bLeg, hkept bLeg hmem _ hstatus, hbranch, hstatus⟩

/-- What failed stays where the others are cancelled. -/
theorem FailedOn.cancelAll {failure : BranchFailure} {call : CallActor}
    (h : FailedOn failure call.bLegs) :
  FailedOn failure (call.cancelPendingBranches none).1.bLegs
  := h.mono fun _ hmem _ hcode =>
    mem_cancelPendingBranches_of_not_isPending hmem (BLeg.not_isPending_of_failed hcode)

variable {bLeg : BLeg}

theorem mem_kept_settled (hmem : bLeg.leg ∈ after.2.cancelled) (hstashed : bLeg.isStashed) :
  bLeg.leg.branch ∈ (state.settled after).kept
  := by
  apply mem_append_right
  exact mem_map.mpr ⟨bLeg.leg, mem_filter.mpr ⟨hmem, hstashed⟩, rfl⟩

/-- Where every branch on the wire is stashed once the window is closed, a settlement leaves the
fork undecided or concludes it with the failure that is held. -/
theorem stage_settled (h : state.Unsettled)
    (hstashed : state.call.forkDispatching = false → ∀ bLeg ∈ state.call.bLegs,
      bLeg.leg.branch ∈ state.sent → bLeg.isPending → bLeg.isStashed) :
  (state.settled state.call.settleFork).Stage
  := by
  cases hclosed : state.call.forkDispatching with
  | true =>
    have hsettle : state.call.settleFork = (state.call, {}) := by
      simp [settleFork, hclosed]
    rw [hsettle, settled_of_none rfl rfl]
    exact .undecided ⟨h, by simp [hclosed]⟩
  | false =>
    rcases settleFork_cases hclosed with
      ⟨best, hbest, hsettle⟩ | ⟨hrings, hsettle⟩ | ⟨-, hsilent, hsettle⟩
    · rw [hsettle]
      refine @Stage.failed _ best ⟨?_, ?_, ?_, ?_, ?_, ?_⟩
      · simp [settled, keepAnswerable, h.conclusions]
      · exact h.unanswered
      · rfl
      · intro bLeg hmem hsent
        rcases mem_cancelPendingBranches hmem with hold | ⟨old, hold, hpending, rfl⟩
        · have hover := not_isPending_of_mem_cancelAll hmem
          exact .inl ((h.status bLeg hold).resolve_left (by simp [hover]))
        · rw [BLeg.branch_cancel] at hsent ⊢
          have hstash := hstashed hclosed old hold hsent hpending
          exact .inr (mem_kept_settled (mem_cancelled hold hpending hstash) hstash)
      · exact (h.best.occurs best hbest).cancelAll
      · intro bLeg hmem code hcode
        obtain ⟨failure, hfailure, houtranks⟩ :=
          h.best.outranks bLeg (mem_of_failed hmem hcode) code hcode
        cases hbest.symm.trans hfailure
        exact houtranks
    · rw [hsettle, settled_of_none rfl rfl]
      exact .undecided ⟨h, fun _ _ => hrings⟩
    · rw [hsettle]
      cases hbest : state.call.forkBestFailure with
      | none =>
        have hsame : { state.call with forkBestFailure := none } = state.call := by rw [← hbest]
        rw [settled_of_none rfl rfl, hsame]
        exact .undecided ⟨h, fun _ hsome => absurd hbest hsome⟩
      | some best =>
        refine @Stage.failed _ best ⟨?_, ?_, ?_, ?_, h.best.occurs best hbest, ?_⟩
        · simp [settled, keepAnswerable, h.conclusions]
        · exact h.unanswered
        · rfl
        · intro bLeg hmem hsent
          rcases h.status bLeg hmem with hpending | hfailed
          · have hstash := hstashed hclosed bLeg hmem hsent hpending
            rw [hsilent bLeg hmem hpending] at hstash
            cases hstash
          · exact .inl hfailed
        · intro bLeg hmem code hcode
          obtain ⟨failure, hfailure, houtranks⟩ := h.best.outranks bLeg hmem code hcode
          cases hbest.symm.trans hfailure
          exact houtranks

/-! ### Steps of an undecided fork -/

theorem mem_sent_of_reaches (h : state.reaches branch) :
  branch ∈ state.sent
  := by
  simp only [reaches, Bool.and_eq_true, contains_iff_mem] at h
  exact h.1

variable {best : Option BranchFailure} {before after : List BLeg}

/-- The better of what is held and a new failure is held when that is recorded. -/
theorem HoldsBest.record (h : HoldsBest best (before ++ bLeg :: after)) (hpending : bLeg.isPending)
    {failure : BranchFailure} (hbranch : bLeg.leg.branch = failure.branch) :
  HoldsBest (some (betterFailure best failure))
    (before ++ { bLeg with status := .failed failure.statusCode } :: after)
  := by
  constructor
  · intro other hmem code hcode
    refine ⟨_, rfl, ?_⟩
    have hothers : other ∈ before ++ bLeg :: after →
        Outranks (betterFailure best failure).statusCode code := by
      intro hmem
      obtain ⟨held, rfl, houtranks⟩ := h.outranks other hmem code hcode
      rw [betterFailure]
      split
      · rename_i hlt
        exact houtranks.of_lt hlt
      · exact houtranks
    simp only [mem_append, mem_cons] at hmem hothers
    rcases hmem with hmem | rfl | hmem
    · exact hothers (.inl hmem)
    · cases hcode
      cases best with
      | none => exact .refl _
      | some held =>
      rw [betterFailure]
      split
      · exact .refl _
      · rename_i hlt
        simpa [Outranks] using hlt
    · exact hothers (.inr (.inr hmem))
  · intro chosen hchosen
    cases hchosen
    have hnew : FailedOn failure
        (before ++ { bLeg with status := .failed failure.statusCode } :: after) :=
      ⟨_, mem_append_right _ mem_cons_self, hbranch, rfl⟩
    cases best with
    | none => exact hnew
    | some held =>
    rw [betterFailure]
    split
    · exact hnew
    refine (h.occurs held rfl).mono fun other hmem code hstatus => ?_
    simp only [mem_append, mem_cons] at hmem ⊢
    rcases hmem with hmem | rfl | hmem
    · exact .inl hmem
    · rw [BLeg.not_isPending_of_failed hstatus] at hpending
      cases hpending
    · exact .inr (.inr hmem)

theorem HoldsBest.replace {bLeg' : BLeg} (h : HoldsBest best (before ++ bLeg :: after))
    (hstatus : bLeg'.status = bLeg.status) (hbranch : bLeg'.leg.branch = bLeg.leg.branch) :
  HoldsBest best (before ++ bLeg' :: after)
  := by
  constructor
  · intro other hmem code hcode
    simp only [mem_append, mem_cons] at hmem
    rcases hmem with hmem | rfl | hmem
    · exact h.outranks other (by simp [hmem]) code hcode
    · exact h.outranks bLeg (by simp) code (hstatus.symm.trans hcode)
    · exact h.outranks other (by simp [hmem]) code hcode
  · intro failure hbest
    obtain ⟨other, hmem, hother, hcode⟩ := h.occurs failure hbest
    simp only [mem_append, mem_cons] at hmem
    rcases hmem with hmem | rfl | hmem
    · exact ⟨other, by simp [hmem], hother, hcode⟩
    · exact ⟨bLeg', by simp, hbranch.trans hother, hstatus.trans hcode⟩
    · exact ⟨other, by simp [hmem], hother, hcode⟩

/-- A leg may be replaced by one of the same branch. -/
theorem Unsettled.replace (h : state.Unsettled) {bLeg' : BLeg}
    (hlegs : state.call.bLegs = before ++ bLeg :: after)
    (hbest : HoldsBest best (before ++ bLeg' :: after))
    (hbranch : bLeg'.leg.branch = bLeg.leg.branch) (htracking : bLeg'.leg.isTrackingLeg = false)
    (hcancel : bLeg'.leg.pendingCancel = false)
    (hstashed : bLeg'.isStashed → bLeg'.leg.branch ∈ state.sent)
    (hstatus : bLeg'.isPending ∨ ∃ code, bLeg'.status = .failed code) :
  Unsettled { state with
    call := { state.call with bLegs := before ++ bLeg' :: after, forkBestFailure := best } }
  := by
  have hall : ∀ {p : BLeg → Prop}, (∀ other ∈ state.call.bLegs, p other) → p bLeg' →
      ∀ other ∈ before ++ bLeg' :: after, p other := by
    intro p hold hnew other hmem
    rw [hlegs] at hold
    simp only [mem_append, mem_cons] at hold hmem
    rcases hmem with hmem | rfl | hmem
    · exact hold other (.inl hmem)
    · exact hnew
    · exact hold other (.inr (.inr hmem))
  refine ⟨h.conclusions, h.unanswered, h.kept, ?_, hall h.notTracking htracking,
    hall h.noCancel hcancel, hall h.stashed hstashed, hall h.status hstatus, hbest⟩
  have hnodup := h.nodup
  rw [hlegs] at hnodup
  simpa [hbranch] using hnodup

section

variable (h : state.Undecided)

include h

theorem Undecided.add {leg : Leg} (horderly : state.Orderly (.add leg)) :
  (state.next (.add leg)).Undecided
  := by
  obtain ⟨hfresh, -, hinvite, hcancel, htracking⟩ := horderly
  have hstashed : BLeg.isStashed ⟨leg, .trying⟩ = false := by simp [BLeg.isStashed, hinvite]
  have hpending : BLeg.isPending ⟨leg, .trying⟩ = true := by simp [BLeg.isPending, htracking]
  have hall : ∀ {p : BLeg → Prop}, (∀ other ∈ state.call.bLegs, p other) → p ⟨leg, .trying⟩ →
      ∀ other ∈ state.call.bLegs ++ [⟨leg, .trying⟩], p other := by
    intro p hold hnew other hmem
    rcases mem_append.mp hmem with hmem | hmem
    · exact hold other hmem
    · rw [mem_singleton.mp hmem]
      exact hnew
  refine ⟨⟨h.conclusions, h.unanswered, h.kept, ?_, hall h.notTracking htracking,
    hall h.noCancel hcancel, hall h.stashed (by simp [hstashed]), hall h.status (.inl hpending),
    ⟨hall h.best.outranks (by simp), ?_⟩⟩, ?_⟩
  · simp only [next, addBLeg, map_append, map_cons, map_nil]
    exact nodup_append.mpr ⟨h.nodup, by simp, by simpa using hfresh⟩
  · exact fun failure hbest =>
      (h.best.occurs failure hbest).mono fun _ hmem _ _ => mem_append_left _ hmem
  · intro hclosed hbest
    obtain ⟨bLeg, hmem, hrings⟩ := h.rings hclosed hbest
    exact ⟨bLeg, mem_append_left _ hmem, hrings⟩

theorem Undecided.send (branch : Text) :
  (state.next (.send branch)).Undecided
  := by
  refine ⟨⟨h.conclusions, h.unanswered, h.kept, h.nodup, h.notTracking, h.noCancel, ?_, h.status,
    h.best⟩, h.rings⟩
  exact fun bLeg hmem hstashed => mem_append_left _ (h.stashed bLeg hmem hstashed)

theorem Undecided.stash (invite : StashedInvite) (horderly : state.Orderly (.stash branch invite)) :
  (state.next (.stash branch invite)).Undecided
  := by
  simp only [next, ForkState.stash]
  cases hfind : state.call.findBLegByBranch branch with
  | none => exact h
  | some index =>
  obtain ⟨before, bLeg, after, hlegs, rfl, rfl⟩ := exists_split_of_find hfind
  have hmem : bLeg ∈ state.call.bLegs := by simp [hlegs]
  have howed : state.call.bLegs[before.length]?.any (·.leg.pendingCancel) = false := by
    simpa [hlegs] using h.noCancel bLeg hmem
  have hbest := h.best
  rw [hlegs] at hbest
  dsimp only
  rw [howed, hlegs, Slice.modify_length_append]
  refine ⟨h.toUnsettled.replace hlegs (hbest.replace rfl rfl) rfl (h.notTracking bLeg hmem) rfl
    (fun _ => horderly) (h.status bLeg hmem), ?_⟩
  intro hclosed hsome
  obtain ⟨other, hother, hpending, hstashed⟩ := h.rings hclosed hsome
  rw [hlegs] at hother
  simp only [mem_append, mem_cons] at hother
  rcases hother with hother | rfl | hother
  · exact ⟨other, by simp [hother], hpending, hstashed⟩
  · exact ⟨_, mem_append_right _ mem_cons_self, hpending, rfl⟩
  · exact ⟨other, by simp [hother], hpending, hstashed⟩

theorem Undecided.success (hsent : branch ∈ state.sent) :
  (state.tryWinOn branch).Stage
  := by
  rw [tryWinOn]
  cases hfind : state.call.findBLegByBranch branch with
  | none => exact .undecided h
  | some index =>
  obtain ⟨before, bLeg, after, hlegs, rfl, rfl⟩ := exists_split_of_find hfind
  simp only [claimAnswer, if_neg h.unanswered]
  refine @Stage.answered _ bLeg.leg.branch ⟨by simp [h.conclusions], rfl, rfl, ?_⟩
  refine ⟨{ bLeg with status := .answered }, ?_, hsent, rfl⟩
  apply mem_cancelPendingBranches_of_not_isPending
  · simp only [setWinner, setStatus, hlegs, Slice.modify_length_append]
    exact mem_append_right _ mem_cons_self
  · rfl

theorem Undecided.failure {statusCode : ℕ} {response : SipMessage}
    (horderly : state.Orderly (.failure branch statusCode response)) :
  (state.recordBranchFailureOn branch statusCode response).Stage
  := by
  rw [recordBranchFailureOn]
  cases hfind : state.call.findBLegByBranch branch with
  | none => exact .undecided h
  | some index =>
  obtain ⟨before, bLeg, after, hlegs, rfl, rfl⟩ := exists_split_of_find hfind
  have hmem : bLeg ∈ state.call.bLegs := by simp [hlegs]
  have hget : state.call.bLegs[before.length]? = some bLeg := by simp [hlegs]
  dsimp only
  rw [recordBranchFailure, isPendingBranch, hget]
  cases hpending : bLeg.isPending with
  | false =>
    simp only [Option.any_some, hpending, Bool.not_false, if_true]
    rw [settled_of_none rfl rfl]
    exact .undecided h
  | true =>
    have hbest := h.best
    rw [hlegs] at hbest
    simp only [Option.any_some, hpending, Bool.not_true, Bool.false_eq_true, if_false,
      if_neg h.unanswered, setStatus, hlegs, Slice.modify_length_append]
    refine stage_settled (h.toUnsettled.replace hlegs
      (@HoldsBest.record _ _ _ _ hbest hpending ⟨_, statusCode, response⟩ rfl) rfl
      (h.notTracking bLeg hmem) (h.noCancel bLeg hmem) (h.stashed bLeg hmem)
      (.inr ⟨statusCode, rfl⟩)) ?_
    intro hclosed other hother hothersent hotherpending
    have hothers : other ∈ before ∨ other ∈ after → other.isStashed := by
      intro hother
      have hold : other ∈ state.call.bLegs := by
        simp only [hlegs, mem_append, mem_cons]
        tauto
      refine horderly hclosed other hold hothersent hotherpending fun hbranch => ?_
      -- no other leg has the branch that failed
      have hnodup := h.nodup
      rw [hlegs, map_append, map_cons, nodup_middle, nodup_cons, ← map_append, ← hbranch] at hnodup
      exact hnodup.1 (mem_map_of_mem (mem_append.mpr hother))
    simp only [mem_append, mem_cons] at hother
    rcases hother with hother | rfl | hother
    · exact hothers (.inl hother)
    · cases hotherpending
    · exact hothers (.inr hother)

theorem Undecided.finish (horderly : state.Orderly .finishForkDispatch) :
  (state.next .finishForkDispatch).Stage
  := by
  simp only [next, finishForkDispatch, if_neg h.unanswered]
  have hclosed : Unsettled { state with call := { state.call with forkDispatching := false } } :=
    ⟨h.conclusions, h.unanswered, h.kept, h.nodup, h.notTracking, h.noCancel, h.stashed, h.status,
      h.best⟩
  exact stage_settled hclosed fun _ bLeg hmem hsent _ => horderly bLeg hmem hsent

theorem Undecided.timeout :
  state.ringTimeout.ConcludedOnce
  := by
  rw [ringTimeout]
  split
  · cases hsettle : state.call.settleForkOnTimeout with
    | none =>
      constructor
      · simp [keepAnswerable, h.conclusions]
      rintro hclosed ⟨bLeg, hmem, hsent⟩ hfailed
      obtain ⟨code, hcode⟩ := hfailed bLeg hmem hsent
      obtain ⟨failure, hbest, -⟩ :=
        h.best.outranks bLeg (mem_of_failed hmem hcode) code hcode
      obtain ⟨ringing, hringing, hpending, hstashed⟩ := h.rings hclosed (by simp [hbest])
      obtain ⟨code, hcode⟩ := hfailed ringing.cancel
        (cancel_mem_cancelAll hringing hpending)
        (by rw [BLeg.branch_cancel]; exact h.stashed ringing hringing hstashed)
      cases hcode
    | some after =>
      obtain ⟨best, hbest, rfl⟩ := settleForkOnTimeout_eq_some hsettle
      constructor
      · simp [settled, keepAnswerable, h.conclusions]
      rintro - - -
      refine ⟨best, by simp [settled, keepAnswerable, h.conclusions],
        (h.best.occurs best hbest).cancelAll, ?_⟩
      intro bLeg hmem code hcode
      obtain ⟨failure, hfailure, houtranks⟩ :=
        h.best.outranks bLeg (mem_of_failed hmem hcode) code hcode
      cases hbest.symm.trans hfailure
      exact houtranks
  · exact h.concludedOnce

theorem Undecided.provisional :
  state.tryMarkRinging.Undecided
  := by
  rw [tryMarkRinging]
  split
  · exact ⟨⟨h.conclusions, by simp, h.kept, h.nodup, h.notTracking, h.noCancel, h.stashed,
      h.status, h.best⟩, h.rings⟩
  · exact h

theorem Undecided.start :
  (state.next .startForkDispatch).Undecided
  := ⟨⟨h.conclusions, h.unanswered, h.kept, h.nodup, h.notTracking, h.noCancel, h.stashed, h.status,
    h.best⟩, nofun⟩

end

end ForkState

end Siphon.B2bua
