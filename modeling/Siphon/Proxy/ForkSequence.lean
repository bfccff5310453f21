import Siphon.Proxy.ForkChoice

/-!
# Sequential forks

A sequential fork sends its first branch, and the next one when it is told to.
-/

namespace Siphon.Proxy

open List

/-- What a branch delivers once it is sent. -/
structure Attempt where
  target : SipUri
  provisionals : List (ℕ × SipMessage)
  fate : Fate
  provisional : ∀ response ∈ provisionals, isProvisional response.1 = true
  final : 200 ≤ fate.statusCode

theorem BranchState.not_answered_of_not_end {state : BranchState} (h : state.isEnd = false) :
  state.isAnswered = false
  := by
  cases state with
  | completed => cases h
  | _ => rfl

namespace Attempt

/-- What the aggregator is told of a branch up to its final response. -/
def before (attempt : Attempt) (index : ℕ) : List ForkEvent :=
  .markTrying index :: (attempt.provisionals.map fun (statusCode, message) =>
      .response index statusCode message)
    ++ if attempt.fate.origin = .local then [.markLocalFailure index] else []

def decisive (attempt : Attempt) : Bool :=
  isDecisive attempt.fate.statusCode

theorem decisive_eq_false_iff {attempt : Attempt} :
  attempt.decisive = false ↔ 300 ≤ attempt.fate.statusCode ∧ attempt.fate.statusCode < 600
  := by
  have hfinal := attempt.final
  simp only [decisive, isDecisive, Bool.or_eq_false_iff, Bool.and_eq_false_iff,
    decide_eq_false_iff_not]
  omega

end Attempt

/-- A branch that was sent: what the fork did by its provisional responses, what by its final
response, and the response chosen with it. -/
structure Tried where
  index : ℕ
  passed : List ForkAction
  action : ForkAction
  response : Option SipMessage

namespace ForkAggregator

def tryBranch (attempts : List Attempt) : ℕ → ForkAggregator → ℕ → List Tried
  | 0, _, _ => []
  | fuel + 1, agg, index =>
    match attempts[index]? with
    | none => []
    | some attempt =>
      let passed := machine.outputs agg (attempt.before index)
      let (agg, action) := (machine.run agg (attempt.before index)).onResponse index
        attempt.fate.statusCode attempt.fate.message
      let (agg, response) := agg.takeBestResponse
      ⟨index, passed, action, response⟩ :: match action with
        | .tryNext next => tryBranch attempts fuel agg next
        | _ => []

/-- How many branches are sent: up to the first that ends the fork. -/
def triedCount (attempts : List Attempt) : ℕ :=
  min attempts.length (attempts.findIdx Attempt.decisive + 1)

/-- What the fork does by the final response of a branch. -/
def decision (attempts : List Attempt) (index : ℕ) (attempt : Attempt) :
    ForkAction × Option SipMessage :=
  if attempt.fate.statusCode < 300 then (.forward2xx, none)
  else if 600 ≤ attempt.fate.statusCode then (.forward6xx, none)
  else if index + 1 < attempts.length then (.tryNext (index + 1), none)
  else
    match verdict (attempts.map Attempt.fate) with
    | some (statusCode, response) => (.forwardBestError statusCode, some response)
    | none => (.forwardBestError 500, none)

/-! ### One branch -/

/-- Nothing but a provisional response goes upstream by an action. -/
def waits : ForkAction → Bool
  | .forwardProvisional _ | .continueWaiting => true
  | _ => false

structure Open (agg : ForkAggregator) : Prop where
  strategy : agg.strategy = .sequential
  unsettled : agg.finalForwarded = false
  nothing : agg.bestResponse = none

section

variable {agg : ForkAggregator} (h : agg.Open)
include h

theorem Open.provisional {index statusCode : ℕ} (hprovisional : isProvisional statusCode = true)
    {r : ForkAggregator × ForkAction} (hr : Responded agg index statusCode r) :
  r.1.Open ∧ waits r.2 = true
  := by
  have hclass : 100 ≤ statusCode ∧ statusCode < 200 := by
    simpa [isProvisional] using hprovisional
  cases hr with
  | unknown => exact ⟨h, rfl⟩
  | provisional _ _ _ _ haction =>
    refine ⟨⟨h.strategy, h.unsettled, h.nothing⟩, ?_⟩
    rcases haction with rfl | ⟨rfl, -⟩ <;> rfl
  | repeated _ h2xx | another _ h2xx | answered _ h2xx | declined _ h6xx => omega
  | late hfinal | failed _ hfinal => cases hfinal.symm.trans hprovisional

theorem Open.step {e : ForkEvent} (hfinal : e.final = none) :
  (machine.step agg e).1.Open ∧ (machine.step agg e).1.branches = (agg.told e).branches
    ∧ ∀ action ∈ (machine.step agg e).2, waits action = true
  := by
  suffices hstep : (machine.step agg e).1.Open
      ∧ ∀ action ∈ (machine.step agg e).2, waits action = true from
    ⟨hstep.1, branches_step hstep.1.unsettled, hstep.2⟩
  have hclass (statusCode index : ℕ)
      (hnone : (if isProvisional statusCode then none else some (index, statusCode)) = none) :
      isProvisional statusCode = true := by
    by_contra hnot
    rw [if_neg hnot] at hnone
    cases hnone
  cases e with
  | markTrying | markLocalFailure => exact ⟨⟨h.strategy, h.unsettled, h.nothing⟩, by simp [machine]⟩
  | response index statusCode message =>
    have hprovisional := hclass statusCode index hfinal
    obtain ⟨hopen, hwaits⟩ := h.provisional hprovisional (agg.responded index statusCode)
    have hkeep : agg.keepResponse index statusCode message = agg := by
      apply if_neg
      simp only [isProvisional, Bool.and_eq_true, decide_eq_true_eq] at hprovisional
      omega
    have hsame : agg.onResponse index statusCode message
        = agg.onBranchResponse index statusCode := by
      rw [onResponse, hkeep]
    simp only [machine, hsame, mem_singleton, forall_eq]
    exact ⟨⟨hopen.strategy, hopen.unsettled, rfl⟩, hwaits⟩
  | status index statusCode =>
    obtain ⟨hopen, hwaits⟩ := h.provisional (hclass statusCode index hfinal) (agg.responded ..)
    simp only [machine, mem_singleton, forall_eq]
    exact ⟨hopen, hwaits⟩

/-- Until a final answer, the fork only waits. -/
theorem Open.run {index : ℕ} {events : List ForkEvent}
    (hevents : ∀ e ∈ events, e.final = none ∧ e.branch = index) :
  (machine.run agg events).Open
    ∧ (machine.run agg events).branches
      = agg.branches.modify index (fun branch => events.foldl ForkBranch.after branch)
    ∧ ∀ action ∈ machine.outputs agg events, waits action = true
  := by
  induction events using reverseRecOn with
  | nil =>
    refine ⟨h, ?_, by simp [Machine.outputs]⟩
    exact (modify_id ..).symm
  | append_singleton events e ih =>
    obtain ⟨hopen, hbranches, hwaits⟩ := ih fun d hd => hevents d (mem_append_left _ hd)
    obtain ⟨hfinal, hbranch⟩ := hevents e (by simp)
    obtain ⟨hopen', hbranches', hwaits'⟩ := hopen.step hfinal
    rw [Machine.run_append, Machine.outputs_append_singleton]
    refine ⟨hopen', ?_, ?_⟩
    · refine hbranches'.trans ?_
      rw [told, hbranches, hbranch, modify_modify_eq]
      simp only [foldl_append, foldl_cons, foldl_nil]
      rfl
    · intro action haction
      obtain hold | hnew := mem_append.mp haction
      · exact hwaits action hold
      · exact hwaits' action hnew

end

/-! ### One branch after another -/

theorem before_spec (attempt : Attempt) (index : ℕ) :
  ∀ e ∈ attempt.before index, e.final = none ∧ e.branch = index
  := by
  intro e he
  simp only [Attempt.before, cons_append, mem_cons, mem_append, mem_map] at he
  obtain rfl | ⟨response, hmem, rfl⟩ | he := he
  · exact ⟨rfl, rfl⟩
  · exact ⟨if_pos (attempt.provisional response hmem), rfl⟩
  · split at he
    · rw [mem_singleton.mp he]
      exact ⟨rfl, rfl⟩
    · cases he

theorem mark_mem_before_iff (attempt : Attempt) (index : ℕ) :
  .markLocalFailure index ∈ attempt.before index ↔ attempt.fate.origin = .local
  := by
  simp only [Attempt.before, cons_append, mem_cons, mem_append, mem_map]
  by_cases h : attempt.fate.origin = .local
  · simp [h]
  · simp [h]

theorem isEnd_foldl_after {events : List ForkEvent} (hfinal : ∀ e ∈ events, e.final = none)
    {branch : ForkBranch} (h : branch.state.isEnd = false) :
  (events.foldl ForkBranch.after branch).state.isEnd = false
  := by
  induction events generalizing branch with
  | nil => exact h
  | cons e events ih =>
  apply ih fun d hd => hfinal d (mem_cons_of_mem _ hd)
  by_cases hmark : e = .markLocalFailure e.branch
  · rw [hmark]
    exact h
  · exact isEnd_after (hfinal e mem_cons_self) hmark branch

def untried : BranchState × ResponseOrigin × Option SipMessage :=
  (.pending, .peer, none)

/-- The branches up to one have ended, and the others were not tried. -/
structure Started (attempts : List Attempt) (agg : ForkAggregator) (index : ℕ) : Prop
    extends Open agg where
  branches : ∀ i : ℕ, (agg.branches[i]?).map view
    = (attempts[i]?).map fun attempt => if i < index then attempt.fate.view else untried
  failed : ∀ i < index, ∀ attempt, attempts[i]? = some attempt → attempt.decisive = false

theorem started_new (attempts : List Attempt) :
  Started attempts (new (attempts.map Attempt.target) .sequential) 0
  where
  strategy := rfl
  unsettled := rfl
  nothing := rfl
  branches i := by
    rw [new, map_map, getElem?_map, Option.map_map]
    rfl
  failed := by simp

variable {attempts : List Attempt} {agg : ForkAggregator} {index : ℕ} {attempt : Attempt}

section

variable (h : Started attempts agg index)

include h

theorem Started.branch {i : ℕ} {branch : ForkBranch} (hbranch : agg.branches[i]? = some branch) :
  ∃ attempt, attempts[i]? = some attempt
    ∧ view branch = if i < index then attempt.fate.view else untried
  := by
  have hview := h.branches i
  rw [hbranch, Option.map_some] at hview
  obtain ⟨attempt, hattempt, heq⟩ := Option.map_eq_some_iff.mp hview.symm
  exact ⟨attempt, hattempt, heq.symm⟩

theorem Started.length :
  agg.branches.length = attempts.length
  := by
  have hnone (i : ℕ) : agg.branches[i]? = none ↔ attempts[i]? = none := by
    rw [← @Option.map_eq_none_iff _ _ _ view, h.branches, Option.map_eq_none_iff]
  apply le_antisymm
  · exact getElem?_eq_none_iff.mp ((hnone _).mpr (getElem?_eq_none le_rfl))
  · exact getElem?_eq_none_iff.mp ((hnone _).mp (getElem?_eq_none le_rfl))

theorem Started.state {i : ℕ} {branch : ForkBranch} (hbranch : agg.branches[i]? = some branch) :
  branch.state = .pending ↔ index ≤ i
  := by
  obtain ⟨attempt, -, hview⟩ := h.branch hbranch
  have hstate : branch.state = (view branch).1 := rfl
  rw [hstate, hview]
  split
  · rename_i hlt
    simp [Fate.view, not_le.mpr hlt]
  · rename_i hlt
    simp [untried, not_lt.mp hlt]

theorem Started.nextPendingBranch :
  agg.nextPendingBranch = if index < attempts.length then some index else none
  := by
  unfold ForkAggregator.nextPendingBranch
  split
  · rename_i hlt
    rw [findIdx?_eq_some_iff_getElem]
    have hlt' : index < agg.branches.length := h.length ▸ hlt
    refine ⟨hlt', ?_, ?_⟩
    · rw [beq_iff_eq, h.state (getElem?_eq_getElem hlt')]
    · intro j hj
      rw [beq_iff_eq, h.state (getElem?_eq_getElem (hj.trans hlt'))]
      exact not_le.mpr hj
  · rename_i hle
    rw [findIdx?_eq_none_iff]
    intro branch hmem
    obtain ⟨i, hlt, rfl⟩ := getElem_of_mem hmem
    rw [beq_eq_false_iff_ne, ne_eq, h.state (getElem?_eq_getElem hlt)]
    have := h.length
    omega

theorem Started.ended (hlength : attempts.length ≤ index) :
  agg.Ended (attempts.map Attempt.fate)
  := by
  apply ext_getElem?
  intro i
  rw [List.getElem?_map, h.branches, List.getElem?_map, List.getElem?_map, Option.map_map]
  cases hi : attempts[i]? with
  | none => rfl
  | some attempt =>
  have hlt : i < index := (List.getElem?_eq_some_iff.mp hi).1.trans_le hlength
  simp [hlt]

theorem Started.class_of_length (hlength : ¬ index < attempts.length) :
  ∀ fate ∈ attempts.map Attempt.fate, 300 ≤ fate.statusCode
  := by
  intro fate hfate
  obtain ⟨attempt, hmem, rfl⟩ := mem_map.mp hfate
  obtain ⟨i, hget⟩ := List.getElem?_of_mem hmem
  have hlt := (List.getElem?_eq_some_iff.mp hget).1
  exact (Attempt.decisive_eq_false_iff.mp (h.failed i (by omega) attempt hget)).1

end

theorem view_foldl_before {branch : ForkBranch} (hbranch : view branch = untried)
    (hclass : 300 ≤ attempt.fate.statusCode) :
  view (((attempt.before index).foldl ForkBranch.after branch).after
      (.response index attempt.fate.statusCode attempt.fate.message))
    = attempt.fate.view
  := by
  have hpeer : branch.origin = .peer := congrArg (fun entry => entry.2.1) hbranch
  have horigin := origin_foldl_after (fun e he => (before_spec attempt index e he).2) branch
  rw [hpeer, mark_mem_before_iff] at horigin
  simp only [reduceCtorEq, false_or] at horigin
  have hstate := BranchState.ofStatus_final attempt.final
  simp only [view, Fate.view, ForkBranch.after, hstate, if_pos hclass, Prod.mk.injEq, true_and,
    and_true]
  exact ResponseOrigin.eq_of_local_iff horigin

theorem Started.told (h : Started attempts agg index) (hattempt : attempts[index]? = some attempt)
    (hfails : attempt.decisive = false) :
  Started attempts ((machine.run agg (attempt.before index)).told
    (.response index attempt.fate.statusCode attempt.fate.message)) (index + 1)
  := by
  obtain ⟨hopen, hbranches, -⟩ := h.toOpen.run (before_spec attempt index)
  have hclass := (Attempt.decisive_eq_false_iff.mp hfails).1
  refine ⟨⟨hopen.strategy, hopen.unsettled, hopen.nothing⟩, ?_, ?_⟩
  swap
  · intro i hlt a ha
    obtain hlt | rfl := Nat.lt_succ_iff_lt_or_eq.mp hlt
    · exact h.failed i hlt a ha
    · rw [hattempt] at ha
      cases ha
      exact hfails
  intro i
  rw [ForkAggregator.told, hbranches, ForkEvent.branch, modify_modify_eq, getElem?_modify]
  by_cases heq : index = i
  · subst heq
    cases hb : agg.branches[index]? with
    | none =>
      have hview := h.branches index
      rw [hb, hattempt] at hview
      cases hview
    | some branch =>
      obtain ⟨a, ha, hview⟩ := h.branch hb
      rw [if_neg (lt_irrefl index)] at hview
      rw [hattempt]
      simp [view_foldl_before hview hclass]
  · have hsame : (i < index + 1) = (i < index) := propext (by omega)
    simp only [if_neg heq, hsame, Option.map_eq_map, Option.map_id_fun']
    exact h.branches i

theorem Started.not_answered (h : Started attempts agg index) (attempt : Attempt) :
  (((machine.run agg (attempt.before index)).branches[index]?).map ForkBranch.state).any
    BranchState.isAnswered = false
  := by
  obtain ⟨-, hbranches, -⟩ := h.toOpen.run (before_spec attempt index)
  rw [hbranches, getElem?_modify]
  cases hb : agg.branches[index]? with
  | none => rfl
  | some branch =>
  have hpending := (h.state hb).mpr le_rfl
  have hend := @isEnd_foldl_after (attempt.before index)
    (fun e he => (before_spec attempt index e he).1) branch (by rw [hpending]; rfl)
  simp only [if_pos, Option.map_eq_map, Option.map_some, Option.any_some]
  exact BranchState.not_answered_of_not_end hend

theorem onResponse_2xx {statusCode : ℕ} (hopen : agg.Open) (hlt : index < agg.branches.length)
    (hanswered : ((agg.branches[index]?).map ForkBranch.state).any BranchState.isAnswered = false)
    (hfinal : 200 ≤ statusCode) (hclass : statusCode < 300) (message : SipMessage) :
  agg.onResponse index statusCode message
    = ((agg.setState index (.completed statusCode)).settle, .forward2xx)
  := by
  have hkeep : agg.keepResponse index statusCode message = agg := if_neg (by omega)
  have hforwarded : (agg.setState index (.completed statusCode)).finalForwarded = false :=
    hopen.unsettled
  rw [onResponse, hkeep, ForkAggregator.onBranchResponse, if_neg (not_le.mpr hlt),
    if_neg (by omega), onFinal, if_pos ⟨hfinal, hclass⟩, hanswered, hforwarded]
  rfl

section

variable (h : Started attempts agg index)
include h

/-- What the fork does by the final response of the branch that is tried. -/
theorem Started.onResponse (hattempt : attempts[index]? = some attempt) :
  let next := (machine.run agg (attempt.before index)).onResponse index attempt.fate.statusCode
    attempt.fate.message
  (next.2, next.1.takeBestResponse.2) = decision attempts index attempt
    ∧ (attempt.decisive = false → index + 1 < attempts.length →
      Started attempts next.1.takeBestResponse.1 (index + 1))
  := by
  intro next
  obtain ⟨hopen, hbranches, -⟩ := h.toOpen.run (before_spec attempt index)
  have hlt : index < (machine.run agg (attempt.before index)).branches.length := by
    rw [hbranches, length_modify, h.length]
    exact (List.getElem?_eq_some_iff.mp hattempt).1
  by_cases h2xx : attempt.fate.statusCode < 300
  · have hnext : next = _ :=
      onResponse_2xx hopen hlt (h.not_answered attempt) attempt.final h2xx attempt.fate.message
    refine ⟨?_, ?_⟩
    · rw [decision, if_pos h2xx, hnext]
      exact Prod.ext rfl hopen.nothing
    · intro hfails
      exact absurd h2xx (not_lt.mpr (Attempt.decisive_eq_false_iff.mp hfails).1)
  have hclass := not_lt.mp h2xx
  have hnext : next = _ := onResponse_failure hopen.unsettled hlt hclass attempt.fate.message
  by_cases h6xx : 600 ≤ attempt.fate.statusCode
  · rw [if_pos h6xx] at hnext
    refine ⟨?_, ?_⟩
    · rw [decision, if_neg h2xx, if_pos h6xx, hnext]
      exact Prod.ext rfl hopen.nothing
    · intro hfails
      exact absurd h6xx (not_le.mpr (Attempt.decisive_eq_false_iff.mp hfails).2)
  have hfails := Attempt.decisive_eq_false_iff.mpr ⟨hclass, not_le.mp h6xx⟩
  have htold := h.told hattempt hfails
  rw [if_neg h6xx, onFailure, htold.strategy, htold.nextPendingBranch] at hnext
  rw [decision, if_neg h2xx, if_neg h6xx]
  by_cases hmore : index + 1 < attempts.length
  · rw [if_pos hmore] at hnext ⊢
    refine ⟨?_, ?_⟩
    · rw [hnext]
      exact Prod.ext rfl htold.nothing
    · intro _ _
      rw [hnext]
      exact ⟨⟨htold.strategy, htold.unsettled, rfl⟩, htold.branches, htold.failed⟩
  · rw [if_neg hmore] at hnext ⊢
    refine ⟨?_, fun _ hlt => absurd hlt hmore⟩
    have hne : attempts.map Attempt.fate ≠ [] := by
      rintro hnil
      rw [map_eq_nil_iff.mp hnil] at hattempt
      cases hattempt
    obtain ⟨statusCode, response, hverdict, hsettle⟩ :=
      (htold.ended (not_lt.mp hmore)).settleOnBestFailure hne (htold.class_of_length hmore)
    rw [hverdict, hnext]
    rw [hsettle]
    rfl

/-! ### The run -/

theorem triedCount_of_decisive (hattempt : attempts[index]? = some attempt)
    (hdecisive : attempt.decisive = true) :
  triedCount attempts = index + 1
  := by
  obtain ⟨hlt, rfl⟩ := List.getElem?_eq_some_iff.mp hattempt
  have hfirst : attempts.findIdx Attempt.decisive = index := by
    rw [findIdx_eq hlt]
    refine ⟨hdecisive, ?_⟩
    intro j hj
    exact h.failed j hj _ (List.getElem?_eq_getElem _)
  rw [triedCount, hfirst, min_eq_right hlt]

theorem lt_triedCount (hlt : index < attempts.length) :
  index < triedCount attempts
  := by
  have hfirst : index ≤ attempts.findIdx Attempt.decisive := by
    apply le_findIdx_of_not hlt
    intro j hj
    exact h.failed j hj _ (getElem?_eq_getElem _)
  rw [triedCount]
  omega

end

/-- What a branch that was sent came to. -/
def Tried.outcome (tried : Tried) : ℕ × ForkAction × Option SipMessage :=
  (tried.index, tried.action, tried.response)

theorem tryBranch_succ (hattempt : attempts[index]? = some attempt) (fuel : ℕ) :
  let next := (machine.run agg (attempt.before index)).onResponse index attempt.fate.statusCode
    attempt.fate.message
  tryBranch attempts (fuel + 1) agg index
    = ⟨index, machine.outputs agg (attempt.before index), next.2, next.1.takeBestResponse.2⟩
      :: match next.2 with
        | .tryNext i => tryBranch attempts fuel next.1.takeBestResponse.1 i
        | _ => []
  := by
  simp only [tryBranch, hattempt]

theorem decision_stops (hstop : attempt.decisive = true ∨ attempts.length ≤ index + 1) (i : ℕ) :
  (decision attempts index attempt).1 ≠ .tryNext i
  := by
  unfold decision
  split
  · simp
  split
  · simp
  rename_i h2xx h6xx
  have hfails := Attempt.decisive_eq_false_iff.mpr ⟨not_lt.mp h2xx, not_le.mp h6xx⟩
  rw [if_neg]
  · split <;> simp
  · rw [hfails] at hstop
    simp only [Bool.false_eq_true, false_or] at hstop
    omega

theorem decision_continues (hfails : attempt.decisive = false)
    (hmore : index + 1 < attempts.length) :
  decision attempts index attempt = (.tryNext (index + 1), none)
  := by
  obtain ⟨hlow, hhigh⟩ := Attempt.decisive_eq_false_iff.mp hfails
  rw [decision, if_neg (not_lt.mpr hlow), if_neg (not_le.mpr hhigh), if_pos hmore]

/-- The branches from one on: with enough fuel, they are sent up to the first that ends the
fork. -/
theorem tryBranch_spec {fuel : ℕ} (h : Started attempts agg index) (hlt : index < attempts.length)
    (hfuel : attempts.length ≤ fuel + index) :
  (tryBranch attempts fuel agg index).map Tried.outcome
      = ((attempts.zipIdx.drop index).take (triedCount attempts - index)).map
        (fun entry => (entry.2, decision attempts entry.2 entry.1))
    ∧ ∀ tried ∈ tryBranch attempts fuel agg index, ∀ action ∈ tried.passed, waits action = true
  := by
  induction fuel generalizing agg index with
  | zero => omega
  | succ fuel ih =>
  have hattempt : attempts[index]? = some attempts[index] := getElem?_eq_getElem hlt
  have hdrop : attempts.zipIdx.drop index
      = (attempts[index], index) :: attempts.zipIdx.drop (index + 1) := by
    rw [drop_eq_getElem_cons (by simpa using hlt), getElem_zipIdx]
    simp
  have hpassed := (h.toOpen.run (before_spec attempts[index] index)).2.2
  have hcount := lt_triedCount h hlt
  obtain ⟨hdecision, hstarted⟩ := h.onResponse hattempt
  rw [tryBranch_succ hattempt, hdrop]
  generalize (machine.run agg (attempts[index].before index)).onResponse index
    attempts[index].fate.statusCode attempts[index].fate.message = next at hdecision hstarted ⊢
  by_cases hstop : attempts[index].decisive = true ∨ attempts.length ≤ index + 1
  · have htail : (match next.2 with
        | .tryNext i => tryBranch attempts fuel next.1.takeBestResponse.1 i
        | _ => []) = [] := by
      have hnot := decision_stops hstop
      rw [← hdecision] at hnot
      split
      · rename_i i heq
        exact absurd heq (hnot i)
      · rfl
    have hlast : triedCount attempts - index = 1 := by
      obtain hdecisive | hend := hstop
      · rw [triedCount_of_decisive h hattempt hdecisive]
        omega
      · unfold triedCount at hcount ⊢
        omega
    rw [htail, hlast]
    refine ⟨?_, ?_⟩
    · simp [Tried.outcome, ← hdecision]
    · simpa using hpassed
  · rw [not_or, Bool.not_eq_true, not_le] at hstop
    obtain ⟨hfails, hmore⟩ := hstop
    have hnext := hstarted hfails hmore
    obtain ⟨hrest, hwaits⟩ := ih hnext hmore (by omega)
    have haction : next.2 = .tryNext (index + 1) := by
      rw [decision_continues hfails hmore] at hdecision
      exact congrArg Prod.fst hdecision
    rw [haction] at hdecision ⊢
    have hcount'' : triedCount attempts - index = triedCount attempts - (index + 1) + 1 := by
      omega
    rw [hcount'', take_succ_cons, map_cons, map_cons, hrest]
    refine ⟨?_, ?_⟩
    · rw [← hdecision]
      rfl
    intro tried htried
    obtain rfl | htried := mem_cons.mp htried
    · exact hpassed
    · exact hwaits tried htried

def isBestError : ForkAction → Bool
  | .forwardBestError _ => true
  | _ => false

theorem triedCount_of_all_fail (h : ∀ attempt ∈ attempts, attempt.decisive = false) :
  triedCount attempts = attempts.length
  := by
  have hfirst : attempts.findIdx Attempt.decisive = attempts.length := by
    rw [findIdx_eq_length]
    exact h
  rw [triedCount, hfirst]
  omega

theorem decisions_of_all_fail (hne : attempts ≠ [])
    (h : ∀ attempt ∈ attempts, attempt.decisive = false) :
  ∃ statusCode response, verdict (attempts.map Attempt.fate) = some (statusCode, response)
    ∧ (attempts.zipIdx.map fun entry => (entry.2, decision attempts entry.2 entry.1)).filter
        (fun outcome => isBestError outcome.2.1)
      = [(attempts.length - 1, .forwardBestError statusCode, some response)]
  := by
  have hne' : attempts.map Attempt.fate ≠ [] := by simpa using hne
  obtain ⟨best, -, hbest, -⟩ := verdict_best hne'
  obtain ⟨⟨statusCode, response⟩, hverdict, -⟩ := Option.map_eq_some_iff.mp hbest
  refine ⟨statusCode, response, hverdict, ?_⟩
  obtain ⟨init, last, hattempts⟩ := (eq_nil_or_concat attempts).resolve_left hne
  rw [concat_eq_append] at hattempts
  have hlength : attempts.length = init.length + 1 := by simp [hattempts]
  have hinit : (init.zipIdx.map fun entry => (entry.2, decision attempts entry.2 entry.1)).filter
      (fun outcome => isBestError outcome.2.1) = [] := by
    rw [filter_eq_nil_iff]
    intro outcome houtcome
    obtain ⟨⟨attempt, i⟩, hmem, rfl⟩ := mem_map.mp houtcome
    have hattempt := fst_mem_of_mem_zipIdx hmem
    have hlt := (List.getElem?_eq_some_iff.mp (mem_zipIdx_iff_getElem?.mp hmem)).1
    have hfails := h attempt (hattempts ▸ mem_append_left _ hattempt)
    simp [decision_continues hfails (show i + 1 < attempts.length by omega), isBestError]
  have hlast : decision attempts init.length last
      = (.forwardBestError statusCode, some response) := by
    obtain ⟨hlow, hhigh⟩ := Attempt.decisive_eq_false_iff.mp (h last (by simp [hattempts]))
    rw [decision, if_neg (not_lt.mpr hlow), if_neg (not_le.mpr hhigh), if_neg (by omega), hverdict]
  have hzip : attempts.zipIdx = init.zipIdx ++ [(last, init.length)] := by
    rw [hattempts, zipIdx_append]
    simp
  rw [hzip, map_append, filter_append, hinit, nil_append, map_singleton, hlast, hlength]
  rfl

/-- A sequential fork whose branches deliver provisional responses and then a final one.  The
branches that are sent are the first targets in their order, each once, up to the first with a 2xx
or a 6xx; before its final response a branch sends only provisional responses upstream; by the
final response the fork is answered, or the next branch is sent; and if all branches fail, the
fork is answered exactly once with a failure, the best of all of them. -/
theorem sequential_in_order (attempts : List Attempt) (more : ℕ) :
  let run := tryBranch attempts (attempts.length + more)
    (new (attempts.map Attempt.target) .sequential) 0
  run.map Tried.index = List.range (triedCount attempts)
    ∧ run.map Tried.outcome = (attempts.zipIdx.take (triedCount attempts)).map
      (fun entry => (entry.2, decision attempts entry.2 entry.1))
    ∧ (∀ tried ∈ run, ∀ action ∈ tried.passed, waits action = true)
    ∧ (attempts ≠ [] → (∀ attempt ∈ attempts, attempt.decisive = false) →
      ∃ statusCode response, verdict (attempts.map Attempt.fate) = some (statusCode, response)
        ∧ (run.map Tried.outcome).filter (fun outcome => isBestError outcome.2.1)
          = [(attempts.length - 1, .forwardBestError statusCode, some response)])
  := by
  intro run
  have hspec : run.map Tried.outcome = (attempts.zipIdx.take (triedCount attempts)).map
        (fun entry => (entry.2, decision attempts entry.2 entry.1))
      ∧ ∀ tried ∈ run, ∀ action ∈ tried.passed, waits action = true := by
    by_cases hne : attempts = []
    · subst hne
      cases more with
      | zero | succ more => exact ⟨rfl, by simp [run, tryBranch]⟩
    · have hlt : 0 < attempts.length := length_pos_iff.mpr hne
      exact tryBranch_spec (started_new attempts) hlt (Nat.le_add_right ..)
  refine ⟨?_, hspec.1, hspec.2, ?_⟩
  · have hindex : run.map Tried.index = (run.map Tried.outcome).map Prod.fst := by
      rw [map_map]
      rfl
    rw [hindex, hspec.1, map_map]
    have hle : triedCount attempts ≤ attempts.length := min_le_left ..
    change (attempts.zipIdx.take _).map Prod.snd = _
    rw [map_take, zipIdx_map_snd, ← range_eq_range', take_range, min_eq_left hle]
  · intro hne hfail
    obtain ⟨statusCode, response, hverdict, hfilter⟩ := decisions_of_all_fail hne hfail
    refine ⟨statusCode, response, hverdict, ?_⟩
    rw [hspec.1, triedCount_of_all_fail hfail, take_of_length_le (by simp)]
    exact hfilter

end ForkAggregator

end Siphon.Proxy
