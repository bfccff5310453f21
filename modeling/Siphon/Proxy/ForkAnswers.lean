import Siphon.Proxy.ForkSettles

/-!
# The 2xx responses of a fork

A 2xx of a branch goes upstream unless the latest event of the branch was a 2xx already.
-/

namespace Siphon.Proxy

open List ForkEvent

def ForkAction.sends2xx : ForkAction → Bool
  | .forward2xx | .forwardAnother2xx => true
  | _ => false

variable {index : ℕ} {e : ForkEvent}

namespace ForkEvent

def branch : ForkEvent → ℕ
  | .markTrying index | .markLocalFailure index => index
  | .response index _ _ | .status index _ => index

/-- The event is a 2xx of a branch. -/
def answers (index : ℕ) (e : ForkEvent) : Bool :=
  e.final.any fun f => f.1 = index && (200 ≤ f.2 && f.2 < 300)

theorem branch_of_effect {state : BranchState} (h : e.effect = some (index, state)) :
  e.branch = index
  := by
  cases e <;> cases h <;> rfl

theorem answers_iff :
  e.answers index = true ↔ ∃ state, e.effect = some (index, state) ∧ state.isAnswered = true
  := by
  rw [answers, Option.any_eq_true]
  constructor
  · rintro ⟨⟨i, statusCode⟩, hfinal, h⟩
    simp only [Bool.and_eq_true, decide_eq_true_eq] at h
    obtain ⟨rfl, h2xx⟩ := h
    refine ⟨.completed statusCode, effect_of_final hfinal, ?_⟩
    simp only [BranchState.isAnswered, Bool.and_eq_true, decide_eq_true_eq]
    omega
  rintro ⟨state, heffect, hanswered⟩
  have hend : state.isEnd = true := by
    cases state with
    | completed => rfl
    | _ => cases hanswered
  obtain ⟨statusCode, hfinal, rfl⟩ := final_of_effect heffect hend
  refine ⟨(index, statusCode), hfinal, ?_⟩
  simp only [BranchState.isAnswered, Bool.and_eq_true, decide_eq_true_eq] at hanswered
  simp only [Bool.and_eq_true, decide_eq_true_eq, true_and]
  omega

end ForkEvent

variable {events : List ForkEvent}

theorem exists_answers (h : (branchState index events).isAnswered = true) :
  ∃ e ∈ events, e.answers index = true
  := by
  obtain ⟨e, he, heffect⟩ := exists_effect rfl h
  exact ⟨e, he, answers_iff.mpr heffect⟩

/-- A branch that has had a 2xx has the next one while it is answered. -/
def Unbroken (index : ℕ) (events : List ForkEvent) : Prop :=
  ∀ before e after, events = before ++ e :: after → e.answers index = true →
    (∃ d ∈ before, d.answers index = true) → (branchState index before).isAnswered = true

theorem unbroken_append_iff :
  Unbroken index (events ++ [e]) ↔ Unbroken index events ∧ (e.answers index = true →
    (∃ d ∈ events, d.answers index = true) → (branchState index events).isAnswered = true)
  := by
  constructor
  · intro h
    constructor
    · rintro before d after rfl
      exact h before d (after ++ [e]) (by simp)
    · exact h events e [] rfl
  · rintro ⟨h, hlast⟩ before d after heq
    obtain rfl | ⟨after, last, rfl⟩ := eq_nil_or_concat after
    · obtain ⟨rfl, hsame⟩ := append_inj' heq rfl
      cases hsame
      exact hlast
    · rw [concat_eq_append, ← cons_append, ← append_assoc] at heq
      obtain ⟨rfl, -⟩ := append_inj' heq rfl
      exact h before d after rfl

namespace ForkAggregator

/-! ### What one event does -/

theorem sends2xx_onFailure (agg : ForkAggregator) :
  agg.onFailure.2.sends2xx = false
  := by
  unfold onFailure
  split
  · split <;> rfl
  · split <;> rfl

theorem Responded.sends2xx_iff {agg : ForkAggregator} {statusCode : ℕ}
    {r : ForkAggregator × ForkAction} (h : Responded agg index statusCode r) :
  r.2.sends2xx = true
    ↔ index < agg.states.length ∧ (200 ≤ statusCode ∧ statusCode < 300)
      ∧ (agg.states[index]?).any BranchState.isAnswered = false
  := by
  have hlength : agg.states.length = agg.branches.length := length_map _
  rw [hlength]
  cases h with
  | unknown hle => simp [ForkAction.sends2xx, not_lt.mpr hle]
  | provisional _ hclass _ _ haction =>
    simp only [isProvisional, Bool.and_eq_true, decide_eq_true_eq] at hclass
    rcases haction with rfl | ⟨rfl, -⟩ <;> simp [ForkAction.sends2xx] <;> omega
  | repeated _ _ hbefore => simp [ForkAction.sends2xx, hbefore]
  | another hlt h2xx hbefore | answered hlt h2xx hbefore =>
    exact ⟨fun _ => ⟨hlt, h2xx, hbefore⟩, fun _ => rfl⟩
  | late _ hnot =>
    exact ⟨fun h => Bool.noConfusion h, fun h => absurd h.2.1 hnot⟩
  | declined => simp [ForkAction.sends2xx] ; omega
  | failed _ _ hnot =>
    rw [sends2xx_onFailure]
    simp [isDecisive] at hnot
    simp only [Bool.false_eq_true, false_iff]
    omega

theorem sends2xx_step (agg : ForkAggregator) (e : ForkEvent) :
  (machine.step agg e).2.any ForkAction.sends2xx = true
    ↔ e.branch < agg.states.length ∧ e.answers e.branch = true
      ∧ (agg.states[e.branch]?).any BranchState.isAnswered = false
  := by
  have hanswers (index statusCode : ℕ) :
      ((if isProvisional statusCode then none else some (index, statusCode)).any
        fun f => f.1 = index && (200 ≤ f.2 && f.2 < 300)) = true
        ↔ 200 ≤ statusCode ∧ statusCode < 300 := by
    by_cases hprovisional : isProvisional statusCode = true
    · rw [if_pos hprovisional]
      simp only [isProvisional, Bool.and_eq_true, decide_eq_true_eq] at hprovisional
      simp only [Option.any_none, Bool.false_eq_true, false_iff]
      omega
    · rw [if_neg hprovisional]
      simp
  cases e with
  | markTrying | markLocalFailure =>
    simp [machine, answers, final]
  | response index statusCode message =>
    simp only [machine, onResponse, takeBestResponse, any_cons, any_nil, Bool.or_false,
      branch, answers, final]
    rw [(responded ..).sends2xx_iff, states_keepResponse]
    exact and_congr_right fun _ => and_congr_left fun _ => (hanswers index statusCode).symm
  | status index statusCode =>
    simp only [machine, any_cons, any_nil, Bool.or_false, branch,
      answers, final]
    rw [(responded ..).sends2xx_iff]
    exact and_congr_right fun _ => and_congr_left fun _ => (hanswers index statusCode).symm

/-- A settled fork sends only further 2xx. -/
theorem settled_step {agg : ForkAggregator} (h : agg.finalForwarded = true) (e : ForkEvent) :
  (machine.step agg e).1.finalForwarded = true ∧ ∀ action ∈ (machine.step agg e).2,
    action = .forwardAnother2xx ∨ action = .continueWaiting
  := by
  have hresponse {agg : ForkAggregator} {index statusCode : ℕ} {r : ForkAggregator × ForkAction}
      (h : agg.finalForwarded = true) (hr : Responded agg index statusCode r) :
      r.1.finalForwarded = true ∧ (r.2 = .forwardAnother2xx ∨ r.2 = .continueWaiting) := by
    cases hr with
    | provisional _ _ _ _ haction =>
      exact ⟨h, .inr (haction.resolve_right fun hopen => absurd (h.symm.trans hopen.2) (by simp))⟩
    | another => exact ⟨h, .inl rfl⟩
    | answered _ _ _ hopen | declined _ _ hopen | failed _ _ _ hopen =>
      cases h.symm.trans hopen
    | _ => exact ⟨h, .inr rfl⟩
  cases e with
  | markTrying | markLocalFailure => exact ⟨h, by simp [machine]⟩
  | response index statusCode message =>
    have hkept := (finalForwarded_keepResponse agg index statusCode message).trans h
    obtain ⟨hstays, haction⟩ := hresponse hkept (responded _ index statusCode)
    exact ⟨hstays, by simpa [machine, onResponse] using haction⟩
  | status index statusCode =>
    obtain ⟨hstays, haction⟩ := hresponse h (responded agg index statusCode)
    exact ⟨hstays, by simpa [machine] using haction⟩

/-! ### Runs -/

variable (targets : List SipUri) (strategy : ForkStrategy) (events : List ForkEvent)

/-- A branch is in the state its events give it. -/
theorem getElem?_states_run :
  (machine.run (new targets strategy) events).states.length = targets.length
    ∧ ∀ i < targets.length, (machine.run (new targets strategy) events).states[i]?
      = some (branchState i events)
  := by
  refine @Machine.history _ _ _ machine (fun events agg => agg.states.length = targets.length
    ∧ ∀ i < targets.length, agg.states[i]? = some (branchState i events)) ?_ _ ?_ events
  · rintro events agg e ⟨hlength, hstates⟩
    refine ⟨(length_states_step agg e).trans hlength, ?_⟩
    intro i hi
    rw [states_step, branchState_append]
    cases e.effect with
    | none => exact hstates i hi
    | some effect =>
    dsimp only
    rw [List.getElem?_set, hlength]
    split
    · rename_i heq
      rw [if_pos (heq ▸ hi)]
    · exact hstates i hi
  · constructor
    · simp [states, new]
    · intro i hi
      simp [states, new, branchState, hi]

/-- A branch is where its own events alone would have taken it, whatever happens to the others. -/
theorem branch_alone (i : ℕ) :
  (machine.run (new targets strategy) events).states[i]?
    = (machine.run (new targets strategy) (events.filter (·.branch = i))).states[i]?
  := by
  have h := getElem?_states_run targets strategy
  by_cases hi : i < targets.length
  · rw [(h events).2 i hi, (h _).2 i hi, branchState, branchState, List.foldl_filter]
    congr
    funext state e
    grind [ForkEvent.branch_of_effect]
  · rw [List.getElem?_eq_none, List.getElem?_eq_none] <;> rw [(h _).1] <;> omega

/-- How often a branch has a 2xx sent upstream. -/
def sent2xx (index : ℕ) (events : List ForkEvent) : ℕ :=
  (machine.trace (new targets strategy) events).countP fun e =>
    e.1.branch = index && e.2.any ForkAction.sends2xx

theorem sent2xx_append (index : ℕ) (events : List ForkEvent) (e : ForkEvent) :
  sent2xx targets strategy index (events ++ [e]) = sent2xx targets strategy index events
    + if index < targets.length ∧ e.answers index = true
        ∧ (branchState index events).isAnswered = false then 1 else 0
  := by
  obtain ⟨hlength, hstates⟩ := getElem?_states_run targets strategy events
  rw [sent2xx, Machine.trace_append, countP_append, Machine.trace_cons, Machine.trace_nil,
    countP_singleton]
  refine congrArg _ (if_congr ?_ rfl rfl)
  rw [Bool.and_eq_true, decide_eq_true_eq, sends2xx_step, hlength]
  constructor
  · rintro ⟨rfl, hlt, hanswers, hbefore⟩
    rw [hstates _ hlt] at hbefore
    exact ⟨hlt, hanswers, hbefore⟩
  · rintro ⟨hlt, hanswers, hbefore⟩
    obtain ⟨state, heffect, -⟩ := answers_iff.mp hanswers
    obtain rfl := branch_of_effect heffect
    rw [hstates _ hlt]
    exact ⟨rfl, hlt, hanswers, hbefore⟩

theorem sent2xx_of_le (h : targets.length ≤ index) (events : List ForkEvent) :
  sent2xx targets strategy index events = 0
  := by
  induction events using List.reverseRecOn with
  | nil => rfl
  | append_singleton events e ih =>
  rw [sent2xx_append, ih, if_neg]
  intro hsends
  exact not_lt.mpr h hsends.1

theorem sent2xx_spec (hlt : index < targets.length) (events : List ForkEvent) :
  (sent2xx targets strategy index events = 0 ↔ ¬ ∃ e ∈ events, e.answers index = true)
    ∧ (sent2xx targets strategy index events ≤ 1 ↔ Unbroken index events)
  := by
  induction events using List.reverseRecOn with
  | nil => simp [sent2xx, Unbroken]
  | append_singleton events e ih =>
  obtain ⟨hzero, hone⟩ := ih
  have hexists : (∃ d ∈ events ++ [e], d.answers index = true)
      ↔ (∃ d ∈ events, d.answers index = true) ∨ e.answers index = true := by
    simp [or_and_right, exists_or]
  rw [sent2xx_append, unbroken_append_iff, hexists]
  cases hanswers : e.answers index with
  | false => simp [hzero, hone]
  | true =>
  cases hstate : (branchState index events).isAnswered with
  | true =>
    have hbefore := exists_answers hstate
    have hsent : ¬ sent2xx targets strategy index events = 0 := by
      rw [hzero, not_not]
      exact hbefore
    simp [hone, hsent]
  | false =>
    simp only [hlt, and_self, if_true, or_true, not_true, Bool.false_eq_true, imp_false,
      forall_const]
    rw [← hzero, ← hone]
    constructor
    · simp
    · omega

/-- Each branch has a 2xx sent upstream at most once if and only if no branch has one that comes
after another with something else of the branch in between.  Once the fork has settled, every
later response is waited on or is another 2xx that goes upstream. -/
theorem one_2xx_per_branch_iff (events : List ForkEvent) :
  ((∀ index, sent2xx targets strategy index events ≤ 1)
      ↔ ∀ index < targets.length, Unbroken index events)
    ∧ ∀ before e, before ++ [e] <+: events →
      (machine.run (new targets strategy) before).hasSettled = true →
      (machine.run (new targets strategy) (before ++ [e])).hasSettled = true
        ∧ ∀ action ∈ (machine.step (machine.run (new targets strategy) before) e).2,
          action = .forwardAnother2xx ∨ action = .continueWaiting
  := by
  constructor
  · constructor
    · intro h index hlt
      exact (sent2xx_spec targets strategy hlt events).2.mp (h index)
    intro h index
    by_cases hlt : index < targets.length
    · exact (sent2xx_spec targets strategy hlt events).2.mpr (h index hlt)
    · rw [sent2xx_of_le targets strategy (not_lt.mp hlt)]
      exact Nat.zero_le 1
  · intro before e _ hsettled
    rw [Machine.run_append]
    exact settled_step hsettled e

/-- A branch that answers, rings and answers again has its 2xx sent upstream twice. -/
theorem sent_twice_after_provisional :
  sent2xx twoTargets .parallel 0
    [.markTrying 0, .markTrying 1, .response 0 200 (reply 200), .response 0 180 (reply 180),
      .response 0 200 (reply 200)] = 2
  := by
  decide

end ForkAggregator

end Siphon.Proxy
