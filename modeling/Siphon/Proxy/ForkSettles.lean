import Siphon.Library.Run
import Siphon.Proxy.Fork

/-!
# When a parallel fork settles

What an aggregator is told of its branches, and the states they are in by it.
-/

namespace Siphon.Proxy

open List BranchState

/-! ### Events -/

/-- What an aggregator is told: a branch is sent, is to be failed by the proxy itself, has a
response, or has a response of which only the status is given. -/
inductive ForkEvent where
  | markTrying (index : ℕ)
  | markLocalFailure (index : ℕ)
  | response (index statusCode : ℕ) (message : SipMessage)
  | status (index statusCode : ℕ)

def isProvisional (statusCode : ℕ) : Bool :=
  100 ≤ statusCode && statusCode < 200

/-- Whether a status decides a fork at once. -/
def isDecisive (statusCode : ℕ) : Bool :=
  200 ≤ statusCode && statusCode < 300 || 600 ≤ statusCode

/-- The state a response takes its branch to. -/
def BranchState.ofStatus (statusCode : ℕ) : BranchState :=
  if isProvisional statusCode then .proceeding statusCode else .completed statusCode

namespace ForkEvent

def effect : ForkEvent → Option (ℕ × BranchState)
  | .markTrying index => some (index, .trying)
  | .markLocalFailure _ => none
  | .response index statusCode _ => some (index, .ofStatus statusCode)
  | .status index statusCode => some (index, .ofStatus statusCode)

def final : ForkEvent → Option (ℕ × ℕ)
  | .response index statusCode _ | .status index statusCode =>
    if isProvisional statusCode then none else some (index, statusCode)
  | _ => none

end ForkEvent

open ForkEvent (final)

/-- The state a branch is in by the events so far: that of the latest event of the branch. -/
def branchState (index : ℕ) (events : List ForkEvent) : BranchState :=
  events.foldl (fun state e =>
    match e.effect with
    | some (i, next) => if i = index then next else state
    | none => state) .pending

def HasFinal (index : ℕ) (events : List ForkEvent) : Prop :=
  ∃ e ∈ events, ∃ statusCode, e.final = some (index, statusCode)

instance (index : ℕ) (events : List ForkEvent) : Decidable (HasFinal index events) :=
  decidable_of_iff (events.any fun e => e.final.any fun f => f.1 == index)
    (by simp [HasFinal, any_eq_true, Option.any_eq_true, Prod.exists])

/-- Whether one of the branches has had a 2xx or a 6xx. -/
def HasDecisive (branches : ℕ) (events : List ForkEvent) : Prop :=
  ∃ e ∈ events, ∃ index statusCode,
    e.final = some (index, statusCode) ∧ index < branches ∧ isDecisive statusCode = true

theorem branchState_append (index : ℕ) (events : List ForkEvent) (e : ForkEvent) :
  branchState index (events ++ [e])
    = match e.effect with
      | some (i, next) => if i = index then next else branchState index events
      | none => branchState index events
  := by
  simp only [branchState, foldl_append, foldl_cons, foldl_nil]

variable {index : ℕ} {events : List ForkEvent}

theorem HasFinal.append (h : HasFinal index events) (more : List ForkEvent) :
  HasFinal index (events ++ more)
  := by
  obtain ⟨e, he, hfinal⟩ := h
  exact ⟨e, mem_append_left _ he, hfinal⟩

variable {n : ℕ}

theorem HasDecisive.append (h : HasDecisive n events) (more : List ForkEvent) :
  HasDecisive n (events ++ more)
  := by
  obtain ⟨e, he, hfinal⟩ := h
  exact ⟨e, mem_append_left _ he, hfinal⟩

variable {e : ForkEvent}

theorem ForkEvent.final_of_effect {state : BranchState} (he : e.effect = some (index, state))
    (hend : state.isEnd = true) :
  ∃ statusCode, e.final = some (index, statusCode) ∧ state = .completed statusCode
  := by
  have hstatus (statusCode : ℕ) (h : (ofStatus statusCode).isEnd = true) :
      isProvisional statusCode = false ∧ ofStatus statusCode = .completed statusCode := by
    unfold ofStatus at h ⊢
    cases hp : isProvisional statusCode with
    | true =>
      rw [hp] at h
      cases h
    | false => exact ⟨rfl, rfl⟩
  cases e with
  | markTrying i =>
    cases he
    cases hend
  | markLocalFailure i => cases he
  | response i statusCode message | status i statusCode =>
    cases he
    obtain ⟨hfinal, hcompleted⟩ := hstatus statusCode hend
    exact ⟨statusCode, by simp [final, hfinal], hcompleted⟩

theorem ForkEvent.final_of_answered {state : BranchState} (he : e.effect = some (index, state))
    (hanswered : state.isAnswered = true) :
  ∃ statusCode, e.final = some (index, statusCode) ∧ isDecisive statusCode = true
  := by
  have hend : state.isEnd = true := by
    cases state with
    | completed => rfl
    | _ => cases hanswered
  obtain ⟨statusCode, hfinal, rfl⟩ := final_of_effect he hend
  refine ⟨statusCode, hfinal, ?_⟩
  simp only [isAnswered, Bool.and_eq_true, decide_eq_true_eq] at hanswered
  simp only [isDecisive, Bool.or_eq_true, Bool.and_eq_true, decide_eq_true_eq]
  omega

theorem ForkEvent.effect_of_final {statusCode : ℕ} (h : e.final = some (index, statusCode)) :
  e.effect = some (index, .completed statusCode)
  := by
  cases e with
  | markTrying | markLocalFailure => cases h
  | response | status =>
  simp only [final] at h
  split at h
  · cases h
  · cases h
    simp [ForkEvent.effect, ofStatus, *]

theorem exists_effect {p : BranchState → Bool} (hpending : p .pending = false)
    (h : p (branchState index events) = true) :
  ∃ e ∈ events, ∃ state, e.effect = some (index, state) ∧ p state = true
  := by
  induction events using List.reverseRecOn with
  | nil => cases hpending.symm.trans h
  | append_singleton events e ih =>
  have hbefore (h : p (branchState index events) = true) :
      ∃ d ∈ events ++ [e], ∃ state, d.effect = some (index, state) ∧ p state = true := by
    obtain ⟨d, hd, heffect⟩ := ih h
    exact ⟨d, mem_append_left _ hd, heffect⟩
  rw [branchState_append] at h
  cases heffect : e.effect with
  | none =>
    rw [heffect] at h
    exact hbefore h
  | some effect =>
    obtain ⟨i, next⟩ := effect
    rw [heffect] at h
    dsimp only at h
    split at h
    · rename_i hi
      exact ⟨e, by simp, next, hi ▸ heffect, h⟩
    · exact hbefore h

theorem hasFinal_of_isEnd (h : (branchState index events).isEnd = true) :
  HasFinal index events
  := by
  obtain ⟨e, he, state, heffect, hend⟩ := exists_effect rfl h
  obtain ⟨statusCode, hfinal, -⟩ := ForkEvent.final_of_effect heffect hend
  exact ⟨e, he, statusCode, hfinal⟩

def ForkAction.settles : ForkAction → Bool
  | .forward2xx | .forward6xx | .forwardBestError _ => true
  | _ => false

namespace ForkAggregator

/-- An aggregator and what it is told.  What it chose is taken at once. -/
def machine : Machine ForkAggregator ForkEvent ForkAction where
  step agg
    | .markTrying index => (agg.markTrying index, [])
    | .markLocalFailure index => (agg.markLocalFailure index, [])
    | .response index statusCode message =>
      let (agg, action) := agg.onResponse index statusCode message
      (agg.takeBestResponse.1, [action])
    | .status index statusCode =>
      let (agg, action) := agg.onBranchResponse index statusCode
      (agg, [action])

/-- How often a run has the fork answered. -/
def settlements (agg : ForkAggregator) (events : List ForkEvent) : ℕ :=
  ((machine.trace agg events).map fun e => e.2.countP ForkAction.settles).sum

/-! ### Branch states -/

def states (agg : ForkAggregator) : List BranchState :=
  agg.branches.map ForkBranch.state

theorem states_modify (branches : List ForkBranch) (index : ℕ) (f : ForkBranch → ForkBranch)
    (hf : ∀ b, (f b).state = b.state) :
  (branches.modify index f).map ForkBranch.state = branches.map ForkBranch.state
  := by
  apply ext_getElem?
  intro i
  rw [List.getElem?_map, List.getElem?_map, List.getElem?_modify]
  cases branches[i]? with
  | none => rfl
  | some b =>
  split
  · exact congrArg some (hf b)
  · rfl

section

variable (agg : ForkAggregator)

@[simp] theorem states_setState (index : ℕ) (state : BranchState) :
  (agg.setState index state).states = agg.states.set index state
  := by
  apply ext_getElem?
  intro i
  simp only [states, setState, List.getElem?_map, List.getElem?_modify, List.getElem?_set,
    length_map]
  by_cases h : index = i
  · subst h
    by_cases hlt : index < agg.branches.length
    · simp [hlt]
    · simp [hlt]
  · simp [h]

@[simp] theorem states_settle :
  agg.settle.states = agg.states
  := by
  simp [states, settle]

@[simp] theorem states_settleOnBestFailure :
  agg.settleOnBestFailure.1.states = agg.states
  := states_settle _

@[simp] theorem states_onFailure :
  agg.onFailure.1.states = agg.states
  := by
  unfold onFailure
  split
  · split
    · exact states_settleOnBestFailure agg
    · rfl
  · split
    · rfl
    · exact states_settleOnBestFailure agg

/-! ### What a response does -/

@[simp] theorem finalForwarded_setState (index : ℕ) (state : BranchState) :
  (agg.setState index state).finalForwarded = agg.finalForwarded
  := rfl

end

/-- What a response does, by its class and by what came before it. -/
inductive Responded (agg : ForkAggregator) (index statusCode : ℕ) :
    ForkAggregator × ForkAction → Prop
  | unknown (hle : agg.branches.length ≤ index) :
    Responded agg index statusCode (agg, .continueWaiting)
  | provisional (hlt : index < agg.branches.length) (hclass : isProvisional statusCode = true)
      (sent100 : Bool) (action : ForkAction)
      (haction : action = .continueWaiting ∨
        action = .forwardProvisional statusCode ∧ agg.finalForwarded = false) :
    Responded agg index statusCode
      ({ agg.setState index (.ofStatus statusCode) with sent100 }, action)
  | repeated (hlt : index < agg.branches.length) (h2xx : 200 ≤ statusCode ∧ statusCode < 300)
      (hbefore : (agg.states[index]?).any isAnswered = true) :
    Responded agg index statusCode (agg.setState index (.ofStatus statusCode), .continueWaiting)
  | another (hlt : index < agg.branches.length) (h2xx : 200 ≤ statusCode ∧ statusCode < 300)
      (hbefore : (agg.states[index]?).any isAnswered = false)
      (hsettled : agg.finalForwarded = true) :
    Responded agg index statusCode (agg.setState index (.ofStatus statusCode), .forwardAnother2xx)
  | answered (hlt : index < agg.branches.length) (h2xx : 200 ≤ statusCode ∧ statusCode < 300)
      (hbefore : (agg.states[index]?).any isAnswered = false)
      (hopen : agg.finalForwarded = false) :
    Responded agg index statusCode ((agg.setState index (.ofStatus statusCode)).settle, .forward2xx)
  | late (hclass : isProvisional statusCode = false)
      (hnot : ¬ (200 ≤ statusCode ∧ statusCode < 300)) (hsettled : agg.finalForwarded = true) :
    Responded agg index statusCode (agg.setState index (.ofStatus statusCode), .continueWaiting)
  | declined (hlt : index < agg.branches.length) (h6xx : 600 ≤ statusCode)
      (hopen : agg.finalForwarded = false) :
    Responded agg index statusCode ((agg.setState index (.ofStatus statusCode)).settle, .forward6xx)
  | failed (hlt : index < agg.branches.length) (hclass : isProvisional statusCode = false)
      (hnot : isDecisive statusCode = false) (hopen : agg.finalForwarded = false) :
    Responded agg index statusCode (agg.setState index (.ofStatus statusCode)).onFailure

theorem responded (agg : ForkAggregator) (index statusCode : ℕ) :
  Responded agg index statusCode (agg.onBranchResponse index statusCode)
  := by
  have hstates : (agg.branches[index]?).map ForkBranch.state = agg.states[index]? := by
    rw [states, getElem?_map]
  unfold onBranchResponse
  split
  · exact .unknown ‹_›
  rename_i hlt
  rw [not_le] at hlt
  split
  · rename_i hclass
    have hstate : proceeding statusCode = .ofStatus statusCode := by
      simp [ofStatus, isProvisional, hclass]
    have hprovisional : isProvisional statusCode = true := by simpa [isProvisional] using hclass
    rw [onProvisional, hstate]
    split
    · exact .provisional hlt hprovisional agg.sent100 _ (.inl rfl)
    rename_i hopen
    have hopen : agg.finalForwarded = false := Bool.not_eq_true _ ▸ hopen
    split
    · split
      · exact .provisional hlt hprovisional agg.sent100 _ (.inl rfl)
      · exact .provisional hlt hprovisional true _ (.inr ⟨rfl, hopen⟩)
    · exact .provisional hlt hprovisional agg.sent100 _ (.inr ⟨rfl, hopen⟩)
  · rename_i hclass
    have hstate : completed statusCode = .ofStatus statusCode := by
      simp [ofStatus, isProvisional, hclass]
    have hfinal : isProvisional statusCode = false := by simpa [isProvisional] using hclass
    rw [onFinal, hstate, hstates]
    cases hopen : agg.finalForwarded with
    | true =>
      simp only [finalForwarded_setState, hopen, if_true, ite_self]
      split
      · rename_i h2xx
        cases hbefore : (agg.states[index]?).any isAnswered with
        | true => exact .repeated hlt h2xx hbefore
        | false => exact .another hlt h2xx hbefore hopen
      · exact .late hfinal ‹_› hopen
    | false =>
      simp only [finalForwarded_setState, hopen, Bool.false_eq_true, if_false]
      split
      · rename_i h2xx
        cases hbefore : (agg.states[index]?).any isAnswered with
        | true => exact .repeated hlt h2xx hbefore
        | false => exact .answered hlt h2xx hbefore hopen
      · split
        · exact .declined hlt ‹_› hopen
        · refine .failed hlt hfinal ?_ hopen
          simp [isDecisive]
          omega

variable {agg : ForkAggregator} {statusCode : ℕ} {r : ForkAggregator × ForkAction}

theorem Responded.states_eq (h : Responded agg index statusCode r) :
  r.1.states = agg.states.set index (.ofStatus statusCode)
  := by
  cases h with
  | unknown hle => exact (set_eq_of_length_le (by simpa [states] using hle)).symm
  | answered | declined => exact (states_settle _).trans (states_setState ..)
  | failed => exact (states_onFailure _).trans (states_setState ..)
  | _ => exact states_setState ..

theorem states_keepResponse (agg : ForkAggregator) (index statusCode : ℕ) (message : SipMessage) :
  (agg.keepResponse index statusCode message).states = agg.states
  := by
  unfold keepResponse
  split
  · exact states_modify _ _ _ fun _ => rfl
  · rfl

/-- An event sets the state of at most one branch. -/
theorem states_step (agg : ForkAggregator) (e : ForkEvent) :
  (machine.step agg e).1.states
    = match e.effect with
      | some (index, state) => agg.states.set index state
      | none => agg.states
  := by
  cases e with
  | markTrying index => exact states_setState agg index .trying
  | markLocalFailure index => exact states_modify _ _ _ fun _ => rfl
  | response index statusCode message =>
    rw [← states_keepResponse agg index statusCode message]
    exact (responded ..).states_eq
  | status index statusCode => exact (responded ..).states_eq

/-! ### Settling -/

theorem settles_onFailure (agg : ForkAggregator) (h : agg.finalForwarded = false) :
  agg.onFailure.2.settles = agg.onFailure.1.finalForwarded
  := by
  unfold onFailure
  split
  · split
    · rfl
    · exact h.symm
  · split
    · exact h.symm
    · rfl

theorem Responded.settles_eq (h : Responded agg index statusCode r) :
  r.2.settles = (!agg.finalForwarded && r.1.finalForwarded)
  := by
  cases h with
  | provisional _ _ _ _ haction =>
    refine Eq.trans ?_ (Bool.not_and_self agg.finalForwarded).symm
    rcases haction with rfl | ⟨rfl, -⟩ <;> rfl
  | answered _ _ _ hopen | declined _ _ hopen =>
    rw [hopen]
    rfl
  | failed _ _ _ hopen =>
    rw [settles_onFailure (agg.setState ..) hopen, hopen]
    rfl
  | _ => exact (Bool.not_and_self agg.finalForwarded).symm

theorem finalForwarded_onFailure (hstrategy : agg.strategy = .parallel)
    (h : agg.finalForwarded = false) :
  agg.onFailure.1.finalForwarded = true ↔ agg.states.all isEnd = true
  := by
  have hcomplete : agg.isComplete = agg.states.all isEnd := by
    rw [isComplete, states, all_map]
    rfl
  rw [onFailure, hstrategy, ← hcomplete]
  dsimp only
  split
  · rename_i hc
    exact ⟨fun _ => hc, fun _ => rfl⟩
  · rename_i hc
    rw [h]
    exact ⟨fun hf => (Bool.false_ne_true hf).elim, fun hall => absurd hall hc⟩

theorem Responded.finalForwarded_iff (h : Responded agg index statusCode r)
    (hstrategy : agg.strategy = .parallel)
    (hanswered : ∀ state ∈ agg.states, state.isAnswered = true → agg.finalForwarded = true) :
  r.1.finalForwarded = true
    ↔ agg.finalForwarded = true
      ∨ (isProvisional statusCode = false ∧ index < agg.states.length
        ∧ (isDecisive statusCode = true
          ∨ (agg.states.set index (.completed statusCode)).all isEnd = true))
  := by
  have hlength : agg.states.length = agg.branches.length := length_map _
  have hstays (hsettled : agg.finalForwarded = true) {p : Prop} :
      agg.finalForwarded = true ↔ agg.finalForwarded = true ∨ p :=
    ⟨.inl, fun _ => hsettled⟩
  cases h with
  | unknown hle => simp [hlength, not_lt.mpr hle]
  | provisional _ hclass => simp [hclass]
  | repeated _ _ hbefore =>
    rw [Option.any_eq_true] at hbefore
    obtain ⟨state, hstate, hbefore⟩ := hbefore
    exact hstays (hanswered state (mem_of_getElem? hstate) hbefore)
  | another _ _ _ hsettled | late _ _ hsettled => exact hstays hsettled
  | answered hlt h2xx =>
    refine ⟨fun _ => .inr ⟨?_, hlength ▸ hlt, .inl ?_⟩, fun _ => rfl⟩
    · simp [isProvisional]
      omega
    · simp [isDecisive, h2xx]
  | declined hlt h6xx =>
    refine ⟨fun _ => .inr ⟨?_, hlength ▸ hlt, .inl ?_⟩, fun _ => rfl⟩
    · simp [isProvisional]
      omega
    · simp [isDecisive, h6xx]
  | failed hlt hclass hnot hopen =>
    have hstate : ofStatus statusCode = .completed statusCode := by
      simp [ofStatus, hclass]
    rw [@finalForwarded_onFailure (agg.setState index (.ofStatus statusCode)) hstrategy hopen,
      states_setState, hstate]
    simp [hopen, hclass, hnot, hlength, hlt]

section

variable (agg : ForkAggregator) (index statusCode : ℕ) (message : SipMessage)

theorem finalForwarded_keepResponse :
  (agg.keepResponse index statusCode message).finalForwarded = agg.finalForwarded
  := by
  unfold keepResponse
  split <;> rfl

theorem strategy_keepResponse :
  (agg.keepResponse index statusCode message).strategy = agg.strategy
  := by
  unfold keepResponse
  split <;> rfl

end

theorem exists_final_iff {p : ℕ → ℕ → Prop} :
  (∃ i code, (if isProvisional statusCode then none else some (index, statusCode)) = some (i, code)
      ∧ p i code)
    ↔ isProvisional statusCode = false ∧ p index statusCode
  := by
  cases isProvisional statusCode <;> simp

/-- A fork settles on a decisive answer or the last end. -/
theorem finalForwarded_step (hstrategy : agg.strategy = .parallel)
    (hanswered : ∀ state ∈ agg.states, state.isAnswered = true → agg.finalForwarded = true)
    (e : ForkEvent) :
  (machine.step agg e).1.finalForwarded = true
    ↔ agg.finalForwarded = true
      ∨ ∃ index statusCode, e.final = some (index, statusCode) ∧ index < agg.states.length
        ∧ (isDecisive statusCode = true
          ∨ (agg.states.set index (.completed statusCode)).all isEnd = true)
  := by
  cases e with
  | markTrying | markLocalFailure => simp [machine, final, markTrying, markLocalFailure]
  | response index statusCode message =>
    have hkeep := states_keepResponse agg index statusCode message
    have hforwarded := finalForwarded_keepResponse agg index statusCode message
    have hresponse := (responded (agg.keepResponse index statusCode message) index
      statusCode).finalForwarded_iff
      ((strategy_keepResponse agg index statusCode message).trans hstrategy)
      (by rwa [hkeep, hforwarded])
    rw [hkeep, hforwarded] at hresponse
    simp only [final, exists_final_iff]
    exact hresponse
  | status index statusCode =>
    simp only [final, exists_final_iff]
    exact (responded agg index statusCode).finalForwarded_iff hstrategy hanswered

theorem settles_step (agg : ForkAggregator) (e : ForkEvent) :
  (machine.step agg e).2.countP ForkAction.settles
    = (!agg.finalForwarded && (machine.step agg e).1.finalForwarded).toNat
  := by
  have hcount (action : ForkAction) (b : Bool) (h : action.settles = b) :
      [action].countP ForkAction.settles = b.toNat := by
    rw [countP_singleton, h]
    cases b <;> rfl
  cases e with
  | markTrying | markLocalFailure =>
    simp [machine, markTrying, markLocalFailure]
  | response index statusCode message =>
    apply hcount
    rw [← finalForwarded_keepResponse agg index statusCode message]
    exact (responded ..).settles_eq
  | status index statusCode =>
    apply hcount
    exact (responded ..).settles_eq

/-! ### Runs -/

/-- What the events so far say of an aggregator of `n` branches. -/
structure History (n : ℕ) (events : List ForkEvent) (agg : ForkAggregator) : Prop where
  strategy : agg.strategy = .parallel
  length : agg.states.length = n
  states : ∀ i < n, agg.states[i]? = some (branchState i events)
  answered : ∀ state ∈ agg.states, state.isAnswered = true → agg.finalForwarded = true
  decisive : HasDecisive n events → agg.finalForwarded = true
  settled : agg.finalForwarded = true → HasDecisive n events ∨ ∀ i < n, HasFinal i events

theorem strategy_step (agg : ForkAggregator) (e : ForkEvent) :
  (machine.step agg e).1.strategy = agg.strategy
  := by
  have hfailure (agg : ForkAggregator) : agg.onFailure.1.strategy = agg.strategy := by
    unfold onFailure
    split
    · split <;> rfl
    · split <;> rfl
  have hresponse {agg : ForkAggregator} {index statusCode : ℕ} {r : ForkAggregator × ForkAction}
      (h : Responded agg index statusCode r) : r.1.strategy = agg.strategy := by
    cases h with
    | failed => exact hfailure _
    | _ => rfl
  cases e with
  | markTrying | markLocalFailure => rfl
  | response index statusCode message =>
    rw [← strategy_keepResponse agg index statusCode message]
    exact hresponse (responded ..)
  | status index statusCode => exact hresponse (responded ..)

theorem length_states_step (agg : ForkAggregator) (e : ForkEvent) :
  (machine.step agg e).1.states.length = agg.states.length
  := by
  rw [states_step]
  split
  · exact length_set
  · rfl

theorem states_step_of_final (h : e.final = some (index, statusCode)) :
  (machine.step agg e).1.states = agg.states.set index (.completed statusCode)
  := by
  rw [states_step, ForkEvent.effect_of_final h]

theorem History.append (h : History n events agg) (e : ForkEvent) :
  History n (events ++ [e]) (machine.step agg e).1
  := by
  have hforwarded := finalForwarded_step h.strategy h.answered e
  have hstates (i : ℕ) (hi : i < n) :
      (machine.step agg e).1.states[i]? = some (branchState i (events ++ [e])) := by
    rw [states_step, branchState_append]
    cases e.effect with
    | none => exact h.states i hi
    | some effect =>
    obtain ⟨index, state⟩ := effect
    dsimp only
    rw [List.getElem?_set, h.length]
    split
    · rename_i heq
      rw [if_pos (heq ▸ hi)]
    · exact h.states i hi
  refine ⟨(strategy_step agg e).trans h.strategy, (length_states_step agg e).trans h.length,
    hstates, ?_, ?_, ?_⟩
  · intro state hmem hanswered
    rw [hforwarded]
    rw [states_step] at hmem
    cases heffect : e.effect with
    | none =>
      rw [heffect] at hmem
      exact .inl (h.answered state hmem hanswered)
    | some effect =>
      obtain ⟨index, next⟩ := effect
      rw [heffect] at hmem
      by_cases hlt : index < agg.states.length
      · rcases mem_or_eq_of_mem_set hmem with hold | rfl
        · exact .inl (h.answered state hold hanswered)
        · obtain ⟨statusCode, hfinal, hdecisive⟩ := ForkEvent.final_of_answered heffect hanswered
          exact .inr ⟨index, statusCode, hfinal, hlt, .inl hdecisive⟩
      · dsimp only at hmem
        rw [set_eq_of_length_le (not_lt.mp hlt)] at hmem
        exact .inl (h.answered state hmem hanswered)
  · rintro ⟨e', he', index, statusCode, hfinal, hlt, hdecisive⟩
    rw [hforwarded]
    rcases mem_append.mp he' with he' | he'
    · exact .inl (h.decisive ⟨e', he', index, statusCode, hfinal, hlt, hdecisive⟩)
    · rw [mem_singleton.mp he'] at hfinal
      exact .inr ⟨index, statusCode, hfinal, h.length ▸ hlt, .inl hdecisive⟩
  · intro hsettled
    rcases hforwarded.mp hsettled with hold | ⟨index, statusCode, hfinal, hlt, hdecisive | hall⟩
    · rcases h.settled hold with hdecisive | hall
      · exact .inl (hdecisive.append [e])
      · exact .inr fun i hi => (hall i hi).append [e]
    · exact .inl ⟨e, by simp, index, statusCode, hfinal, h.length ▸ hlt, hdecisive⟩
    · right
      intro i hi
      apply hasFinal_of_isEnd
      rw [← states_step_of_final hfinal] at hall
      exact all_eq_true.mp hall _ (mem_of_getElem? (hstates i hi))

variable (targets : List SipUri)

theorem history_new :
  History targets.length [] (new targets .parallel)
  where
  strategy := rfl
  length := by simp [states, new]
  states i hi := by simp [states, new, branchState, hi]
  answered state hmem hanswered := by
    obtain ⟨target, -, rfl⟩ : ∃ target ∈ targets, pending = state := by
      simpa [states, new] using hmem
    cases hanswered
  decisive := by rintro ⟨e, he, -⟩; cases he
  settled h := by cases h

/-- Every run has its history. -/
theorem history_run (events : List ForkEvent) :
  History targets.length events (machine.run (new targets .parallel) events)
  := Machine.history (fun _ _ e h => h.append e) (history_new targets) events

theorem settled_mono (h : History n events agg) (hsettled : agg.finalForwarded = true)
    (more : List ForkEvent) :
  (machine.run agg more).finalForwarded = true
  := by
  induction more generalizing agg events with
  | nil => exact hsettled
  | cons e more ih =>
  apply ih (h.append e)
  rw [finalForwarded_step h.strategy h.answered]
  exact .inl hsettled

theorem settlements_eq (events : List ForkEvent) :
  (new targets .parallel).settlements events
    = (machine.run (new targets .parallel) events).finalForwarded.toNat
  := by
  induction events using List.reverseRecOn with
  | nil => rfl
  | append_singleton events e ih =>
  have hmono := settled_mono (history_run targets events)
  simp only [settlements, Machine.trace_append, Machine.run_append, map_append,
    sum_append, Machine.trace_cons, Machine.trace_nil, map_cons, map_nil,
    sum_cons, sum_nil, Nat.add_zero, settles_step] at ih ⊢
  rw [ih]
  cases hsettled : (machine.run (new targets .parallel) events).finalForwarded with
  | true =>
    rw [hmono hsettled [e]]
    rfl
  | false => simp

theorem History.all_isEnd_iff (h : History n events agg) :
  agg.states.all isEnd = true ↔ ∀ i < n, (branchState i events).isEnd = true
  := by
  rw [all_eq_true]
  constructor
  · intro hall i hi
    exact hall _ (mem_of_getElem? (h.states i hi))
  intro hall state hmem
  obtain ⟨i, hi, rfl⟩ := getElem_of_mem hmem
  have hstate := h.states i (h.length ▸ hi)
  rw [List.getElem?_eq_getElem hi] at hstate
  rw [Option.some.inj hstate]
  exact hall i (h.length ▸ hi)

theorem finalForwarded_run_iff {targets : List SipUri} {before : List ForkEvent} {last : ForkEvent}
    (hfinal : ∀ i < targets.length, HasFinal i (before ++ [last]))
    (hlast : ∃ i < targets.length, ¬ HasFinal i before) :
  (machine.run (new targets .parallel) (before ++ [last])).finalForwarded = true
    ↔ HasDecisive targets.length (before ++ [last])
      ∨ ∀ i < targets.length, (branchState i (before ++ [last])).isEnd = true
  := by
  have hbefore := history_run targets before
  have hafter := history_run targets (before ++ [last])
  have hrun : machine.run (new targets .parallel) (before ++ [last])
      = (machine.step (machine.run (new targets .parallel) before) last).1 := by
    rw [Machine.run_append]
    rfl
  have hstep := finalForwarded_step hbefore.strategy hbefore.answered last
  rw [← hrun] at hstep
  constructor
  · intro hsettled
    rcases hstep.mp hsettled with hold | ⟨index, statusCode, hf, hlt, hdecisive | hall⟩
    · rcases hbefore.settled hold with hdecisive | hall
      · exact .inl (hdecisive.append [last])
      · obtain ⟨i, hi, hnone⟩ := hlast
        exact absurd (hall i hi) hnone
    · exact .inl ⟨last, by simp, index, statusCode, hf, hbefore.length ▸ hlt, hdecisive⟩
    · rw [← states_step_of_final hf, ← hrun] at hall
      exact .inr (hafter.all_isEnd_iff.mp hall)
  · rintro (hdecisive | hall)
    · exact hafter.decisive hdecisive
    obtain ⟨i, hi, hnone⟩ := hlast
    obtain ⟨e, he, statusCode, hf⟩ := hfinal i hi
    rcases mem_append.mp he with he | he
    · exact absurd ⟨e, he, statusCode, hf⟩ hnone
    rw [mem_singleton.mp he] at hf
    rw [hstep]
    refine .inr ⟨i, statusCode, hf, hbefore.length.symm ▸ hi, .inr ?_⟩
    rw [← states_step_of_final hf, ← hrun]
    exact hafter.all_isEnd_iff.mpr hall

/-- A parallel fork and the event by which the last of its branches has had a final response: the
fork is answered exactly once over the whole run, and has settled by that event, if and only if a
branch has had a 2xx or a 6xx by then or the latest event of every branch is a final response. -/
theorem settles_once_iff (targets : List SipUri) (before after : List ForkEvent) (last : ForkEvent)
    (hfinal : ∀ i < targets.length, HasFinal i (before ++ [last]))
    (hlast : ∃ i < targets.length, ¬ HasFinal i before) :
  (new targets .parallel).settlements (before ++ [last] ++ after) = 1
      ∧ (machine.run (new targets .parallel) (before ++ [last])).hasSettled = true
    ↔ HasDecisive targets.length (before ++ [last])
      ∨ ∀ i < targets.length, (branchState i (before ++ [last])).isEnd = true
  := by
  rw [← finalForwarded_run_iff hfinal hlast, settlements_eq, hasSettled]
  constructor
  · exact And.right
  intro hsettled
  have hmono := settled_mono (history_run targets (before ++ [last])) hsettled after
  rw [← Machine.run_append] at hmono
  exact ⟨by rw [hmono]; rfl, hsettled⟩

/-- In any run, a parallel fork is answered once it has settled and never again; it has settled once
there is a 2xx or a 6xx, and not before that or a final response of every branch. -/
theorem answered_once_settled (targets : List SipUri) (events : List ForkEvent) :
  let settled := (machine.run (new targets .parallel) events).hasSettled
  (new targets .parallel).settlements events = settled.toNat
    ∧ (HasDecisive targets.length events → settled = true)
    ∧ (settled = true →
      HasDecisive targets.length events ∨ ∀ i < targets.length, HasFinal i events)
  := by
  have h := history_run targets events
  exact ⟨settlements_eq targets events, h.decisive, h.settled⟩

def reply (statusCode : ℕ) : SipMessage :=
  ⟨.response ⟨.sip20, statusCode, [], false⟩, SipHeaders.new, []⟩

def twoTargets : List SipUri :=
  [⟨.sip, none, "a.example".toList, none, [], none⟩,
    ⟨.sip, none, "b.example".toList, none, [], none⟩]

/-- A fork to two users that both fail is answered once. -/
theorem settles_once_of_two_failures :
  (new twoTargets .parallel).settlements
      ([ForkEvent.markTrying 0, .markTrying 1, .response 0 486 (reply 486),
          .response 1 180 (reply 180)] ++ [ForkEvent.response 1 404 (reply 404)] ++ []) = 1
    ∧ (machine.run (new twoTargets .parallel)
      ([ForkEvent.markTrying 0, .markTrying 1, .response 0 486 (reply 486),
          .response 1 180 (reply 180)] ++ [ForkEvent.response 1 404 (reply 404)])).hasSettled = true
  := by
  apply (settles_once_iff _ _ _ _ ?_ ?_).mpr
  · right
    decide
  · decide
  · decide

/-- A provisional response that comes after the final response of its branch: every branch has
had a final response, and the fork is never answered. -/
theorem not_settled_of_late_provisional :
  (∀ i < twoTargets.length, HasFinal i
      [.markTrying 0, .markTrying 1, .response 0 486 (reply 486), .response 0 180 (reply 180),
        .response 1 404 (reply 404)])
    ∧ (new twoTargets .parallel).settlements
      [.markTrying 0, .markTrying 1, .response 0 486 (reply 486), .response 0 180 (reply 180),
        .response 1 404 (reply 404)] = 0
    ∧ (machine.run (new twoTargets .parallel)
      [.markTrying 0, .markTrying 1, .response 0 486 (reply 486), .response 0 180 (reply 180),
        .response 1 404 (reply 404)]).hasSettled = false
  := by
  decide

end ForkAggregator

end Siphon.Proxy
