import Siphon.Proxy.ForkAnswers

/-!
# The answer of a fork whose branches all fail

While a fork has not settled, a branch is what its own events made of it, whatever the events of the
others.
-/

namespace Siphon.Proxy

open List BranchState ForkEvent

/-! ### The greatest element -/

variable {α : Type}

theorem maxByKey_append_singleton (key : α → ResponseRank) (l : List α) (x : α) :
  maxByKey key (l ++ [x]) = match maxByKey key l with
    | none => some x
    | some best => if (key x).lt (key best) then some best else some x
  := by
  rw [maxByKey, foldl_append]
  rfl

theorem maxByKey_map {β : Type} (key : β → ResponseRank) (f : α → β) (l : List α) :
  maxByKey key (l.map f) = (maxByKey (fun x => key (f x)) l).map f
  := by
  induction l using reverseRecOn with
  | nil => rfl
  | append_singleton l x ih =>
  rw [map_append, map_singleton, maxByKey_append_singleton, ih, maxByKey_append_singleton]
  cases maxByKey (fun x => key (f x)) l with
  | none => rfl
  | some best =>
  simp only [Option.map_some]
  split <;> rfl

theorem ResponseRank.lt_asymm {a b : ResponseRank} (h : a.lt b = true) :
  b.lt a = false
  := by
  rw [← Bool.not_eq_true]
  intro h'
  have hself := lt_trans h h'
  rw [lt_irrefl] at hself
  cases hself

theorem ResponseRank.not_lt_trans {a b c : ResponseRank} (hab : a.lt b = false)
    (hbc : b.lt c = false) :
  a.lt c = false
  := by
  rw [← Bool.not_eq_true, lt_iff] at *
  omega

theorem maxByKey_spec {key : α → ResponseRank} {l : List α} (hne : l ≠ []) :
  ∃ best ∈ l, maxByKey key l = some best ∧ ∀ x ∈ l, (key best).lt (key x) = false
  := by
  induction l using reverseRecOn with
  | nil => exact absurd rfl hne
  | append_singleton l x ih =>
  rw [maxByKey_append_singleton]
  by_cases hnil : l = []
  · subst hnil
    refine ⟨x, by simp, rfl, ?_⟩
    simp [ResponseRank.lt_irrefl]
  obtain ⟨best, hmem, hbest, hmax⟩ := ih hnil
  rw [hbest]
  dsimp only
  split
  · rename_i hlt
    refine ⟨best, mem_append_left _ hmem, rfl, ?_⟩
    intro y hy
    obtain hy | hy := mem_append.mp hy
    · exact hmax y hy
    · rw [mem_singleton.mp hy]
      exact ResponseRank.lt_asymm hlt
  · rename_i hlt
    have hle := Bool.eq_false_iff.mpr hlt
    refine ⟨x, by simp, rfl, ?_⟩
    intro y hy
    obtain hy | hy := mem_append.mp hy
    · exact ResponseRank.not_lt_trans hle (hmax y hy)
    · rw [mem_singleton.mp hy]
      exact ResponseRank.lt_irrefl _

/-! ### What is chosen among failures -/

structure Fate where
  statusCode : ℕ
  message : SipMessage
  origin : ResponseOrigin

/-- The rank of a failure, where a peer's comes before one of the proxy's own. -/
def Fate.rank (fate : Fate) : ResponseRank :=
  .preferring fate.statusCode (fate.origin == .peer)

def addChallenges (response other : SipMessage) : SipMessage :=
  ["WWW-Authenticate".toList, "Proxy-Authenticate".toList].foldl (fun response name =>
    ((other.headers.getAll name).getD []).foldl (fun response value =>
      { response with headers := response.headers.add name value }) response) response

/-- The best failure, and with a 401 or 407 the challenges of the others. -/
def verdict (fates : List Fate) : Option (ℕ × SipMessage) :=
  (maxByKey (fun entry => entry.1.rank) fates.zipIdx).map fun (best, chosen) =>
    (best.statusCode,
      if best.statusCode = 401 ∨ best.statusCode = 407 then
        fates.zipIdx.foldl (fun response (other, index) =>
          if index = chosen ∨ ¬ (other.statusCode = 401 ∨ other.statusCode = 407) then response
          else addChallenges response other.message) best.message
      else best.message)

variable {fates : List Fate}

theorem verdict_best (hne : fates ≠ []) :
  ∃ best ∈ fates, (verdict fates).map Prod.fst = some best.statusCode
    ∧ ∀ other ∈ fates, best.rank.lt other.rank = false
  := by
  have hne' : fates.zipIdx ≠ [] := by simpa using hne
  obtain ⟨⟨best, chosen⟩, hmem, hbest, hmax⟩ :=
    @maxByKey_spec _ (fun entry => entry.1.rank) _ hne'
  refine ⟨best, fst_mem_of_mem_zipIdx hmem, ?_, ?_⟩
  · rw [verdict, hbest]
    rfl
  intro other hother
  obtain ⟨index, hlt, rfl⟩ := getElem_of_mem hother
  apply hmax (fates[index], index)
  rw [mem_zipIdx_iff_getElem?]
  exact getElem?_eq_getElem hlt

namespace ForkAggregator

def view (branch : ForkBranch) : BranchState × ResponseOrigin × Option SipMessage :=
  (branch.state, branch.origin, branch.response)

end ForkAggregator

/-- What the choice reads of a branch that has ended. -/
def Fate.view (fate : Fate) : BranchState × ResponseOrigin × Option SipMessage :=
  (.completed fate.statusCode, fate.origin, some fate.message)

namespace ForkAggregator

def Ended (agg : ForkAggregator) (fates : List Fate) : Prop :=
  agg.branches.map view = fates.map Fate.view

variable {agg : ForkAggregator} {fates : List Fate}

theorem Ended.zipIdx (h : agg.Ended fates) :
  agg.branches.zipIdx.map (Prod.map view id) = fates.zipIdx.map (Prod.map Fate.view id)
  := by
  rw [← zipIdx_map, ← zipIdx_map, h]

/-- The rank a branch that failed is chosen by. -/
def rankOf (entry : (BranchState × ResponseOrigin × Option SipMessage) × ℕ) :
    Option (ℕ × ResponseRank) :=
  match entry.1.1 with
  | .completed code =>
    if 300 ≤ code then some (entry.2, .preferring code (entry.1.2.1 == .peer)) else none
  | _ => none

theorem Ended.bestBranch (h : agg.Ended fates) (hclass : ∀ fate ∈ fates, 300 ≤ fate.statusCode) :
  agg.bestBranch = (maxByKey (fun entry => entry.1.rank) fates.zipIdx).map Prod.snd
  := by
  have hfailed : (fates.zipIdx.map (Prod.map Fate.view id)).filterMap rankOf
      = fates.zipIdx.map fun entry => (entry.2, entry.1.rank) := by
    rw [filterMap_map, ← filterMap_eq_map]
    apply filterMap_congr
    rintro ⟨fate, index⟩ hmem
    exact if_pos (hclass fate (fst_mem_of_mem_zipIdx hmem))
  calc agg.bestBranch
    _ = (maxByKey Prod.snd (agg.branches.zipIdx.filterMap
          (rankOf ∘ Prod.map ForkAggregator.view id))).map Prod.fst := rfl
    _ = (maxByKey Prod.snd
          (fates.zipIdx.map fun entry => (entry.2, entry.1.rank))).map Prod.fst := by
      rw [← filterMap_map, h.zipIdx, hfailed]
    _ = (maxByKey (fun entry => entry.1.rank) fates.zipIdx).map Prod.snd := by
      rw [maxByKey_map, Option.map_map]
      rfl

/-- The challenges of a branch other than the chosen one are added to a response. -/
def collect (chosen : ℕ) (response : SipMessage)
    (entry : (BranchState × ResponseOrigin × Option SipMessage) × ℕ) : SipMessage :=
  if entry.2 = chosen ∨ ¬ (entry.1.1 = .completed 401 ∨ entry.1.1 = .completed 407) then response
  else
    match entry.1.2.2 with
    | none => response
    | some other => addChallenges response other

theorem Ended.collectChallenges (h : agg.Ended fates) (chosen : ℕ) (response : SipMessage) :
  agg.collectChallenges chosen response
    = fates.zipIdx.foldl (fun response (other, index) =>
        if index = chosen ∨ ¬ (other.statusCode = 401 ∨ other.statusCode = 407) then response
        else addChallenges response other.message) response
  := by
  calc agg.collectChallenges chosen response
    _ = (agg.branches.zipIdx.map (Prod.map ForkAggregator.view id)).foldl (collect chosen)
        response := by
      rw [foldl_map]
      rfl
    _ = fates.zipIdx.foldl (fun response entry =>
          collect chosen response (Prod.map Fate.view id entry)) response := by
      rw [h.zipIdx, foldl_map]
    _ = _ := by
      simp only [collect, Prod.map, Fate.view, completed.injEq, id]

theorem Ended.settleOnBestFailure (h : agg.Ended fates) (hne : fates ≠ [])
    (hclass : ∀ fate ∈ fates, 300 ≤ fate.statusCode) :
  ∃ statusCode response, verdict fates = some (statusCode, response)
    ∧ agg.settleOnBestFailure
      = ({ agg with bestResponse := some response }.settle, .forwardBestError statusCode)
  := by
  have hne' : fates.zipIdx ≠ [] := by simpa using hne
  obtain ⟨⟨best, chosen⟩, hmem, hbest, -⟩ :=
    @maxByKey_spec _ (fun entry => entry.1.rank) _ hne'
  have hget : fates[chosen]? = some best := mem_zipIdx_iff_getElem?.mp hmem
  have hview : (agg.branches[chosen]?).map view = some best.view := by
    rw [← getElem?_map, h, getElem?_map, hget]
    rfl
  obtain ⟨branch, hbranch, hbview⟩ := Option.map_eq_some_iff.mp hview
  simp only [view, Fate.view, Prod.mk.injEq] at hbview
  obtain ⟨hstate, -, hresponse⟩ := hbview
  refine ⟨_, _, by rw [verdict, hbest]; rfl, ?_⟩
  simp only [ForkAggregator.settleOnBestFailure, h.bestBranch hclass, hbest, Option.map_some,
    Option.bind_some, hbranch, hstate, hresponse, Option.getD_some, h.collectChallenges]

end ForkAggregator

/-! ### Branches by their own events -/

variable {statusCode : ℕ}

theorem BranchState.ofStatus_final (h : 200 ≤ statusCode) :
  ofStatus statusCode = .completed statusCode
  := by
  rw [ofStatus, if_neg]
  simp only [isProvisional, Bool.and_eq_true, decide_eq_true_eq]
  omega

theorem ResponseOrigin.eq_of_local_iff {a b : ResponseOrigin} (h : a = .local ↔ b = .local) :
  a = b
  := by
  cases a with
  | «local» => exact (h.mp rfl).symm
  | peer =>
  cases b with
  | peer => rfl
  | «local» => exact h.mpr rfl

variable {e : ForkEvent} {index : ℕ}

theorem ForkEvent.branch_of_final (h : e.final = some (index, statusCode)) :
  e.branch = index
  := branch_of_effect (effect_of_final h)

/-- What an event makes of its branch, while the fork has not settled. -/
def ForkBranch.after (branch : ForkBranch) : ForkEvent → ForkBranch
  | .markTrying _ => { branch with state := .trying }
  | .markLocalFailure _ => { branch with origin := .local }
  | .response _ statusCode message =>
    { branch with
      state := .ofStatus statusCode
      response := if 300 ≤ statusCode then some message else branch.response }
  | .status _ statusCode => { branch with state := .ofStatus statusCode }

namespace ForkAggregator

/-- The aggregator with what an event makes of its branch. -/
def told (agg : ForkAggregator) (e : ForkEvent) : ForkAggregator :=
  { agg with branches := agg.branches.modify e.branch fun branch => branch.after e }

variable {agg : ForkAggregator}

theorem setState_keepResponse (h : agg.finalForwarded = false) (index statusCode : ℕ)
    (message : SipMessage) :
  (agg.keepResponse index statusCode message).setState index (.ofStatus statusCode)
    = agg.told (.response index statusCode message)
  := by
  rw [keepResponse, told]
  by_cases hfailure : 300 ≤ statusCode
  · rw [if_pos ⟨hfailure, h⟩]
    simp only [setState, branch, ForkBranch.after, modify_modify_eq, if_pos hfailure]
    rfl
  · rw [if_neg fun hkept => hfailure hkept.1]
    simp only [setState, branch, ForkBranch.after, if_neg hfailure]

theorem onResponse_failure (h : agg.finalForwarded = false) (hlt : index < agg.branches.length)
    (hclass : 300 ≤ statusCode) (message : SipMessage) :
  agg.onResponse index statusCode message
    = if 600 ≤ statusCode then ((agg.told (.response index statusCode message)).settle, .forward6xx)
      else (agg.told (.response index statusCode message)).onFailure
  := by
  have hstate := ofStatus_final (show 200 ≤ statusCode by omega)
  have hlength : (agg.keepResponse index statusCode message).branches.length
      = agg.branches.length := by
    unfold keepResponse
    split
    · exact length_modify ..
    · rfl
  have hforwarded : ((agg.keepResponse index statusCode message).setState index
      (.completed statusCode)).finalForwarded = false :=
    (finalForwarded_keepResponse agg index statusCode message).trans h
  rw [onResponse, onBranchResponse, hlength, if_neg (not_le.mpr hlt), if_neg (by omega), onFinal,
    if_neg (by omega), hforwarded, ← hstate, setState_keepResponse h]
  rfl

theorem onFailure_cases (agg : ForkAggregator) :
  agg.onFailure.1.finalForwarded = true ∨ agg.onFailure.1 = agg
  := by
  unfold onFailure
  split
  · split
    · exact .inl rfl
    · exact .inr rfl
  · split
    · exact .inr rfl
    · exact .inl rfl

theorem Responded.settled_or_branches {r : ForkAggregator × ForkAction}
    (h : Responded agg index statusCode r) :
  r.1.finalForwarded = true
    ∨ r.1.branches = (agg.setState index (.ofStatus statusCode)).branches
  := by
  cases h with
  | unknown hle => exact .inr (modify_eq_self hle).symm
  | answered | declined => exact .inl rfl
  | failed =>
    obtain hsettled | hsame := onFailure_cases (agg.setState index (.ofStatus statusCode))
    · exact .inl hsettled
    · exact .inr (congrArg branches hsame)
  | _ => exact .inr rfl

theorem branches_step (h : (machine.step agg e).1.finalForwarded = false) :
  (machine.step agg e).1.branches = (agg.told e).branches
  := by
  have hbefore : agg.finalForwarded = false := by
    by_contra hsettled
    rw [(settled_step (Bool.not_eq_false _ ▸ hsettled) e).1] at h
    cases h
  cases e with
  | markTrying | markLocalFailure => rfl
  | response index statusCode message =>
    obtain hsettled | hbranches :=
      (responded (agg.keepResponse index statusCode message) index statusCode).settled_or_branches
    · exact absurd (h.symm.trans hsettled) Bool.false_ne_true
    · rw [setState_keepResponse hbefore] at hbranches
      exact hbranches
  | status index statusCode =>
    obtain hsettled | hbranches := (responded agg index statusCode).settled_or_branches
    · exact absurd (h.symm.trans hsettled) Bool.false_ne_true
    · exact hbranches

def branchAfter (target : SipUri) (index : ℕ) (events : List ForkEvent) : ForkBranch :=
  (events.filter fun e => e.branch = index).foldl ForkBranch.after ⟨target, .pending, .peer, none⟩

theorem branchAfter_append (target : SipUri) (index : ℕ) (events : List ForkEvent) (e : ForkEvent) :
  branchAfter target index (events ++ [e])
    = if e.branch = index then (branchAfter target index events).after e
      else branchAfter target index events
  := by
  by_cases h : e.branch = index
  · simp [branchAfter, h]
  · simp [branchAfter, h]

theorem state_branchAfter (target : SipUri) (index : ℕ) (events : List ForkEvent) :
  (branchAfter target index events).state = branchState index events
  := by
  induction events using reverseRecOn with
  | nil => rfl
  | append_singleton events e ih =>
  rw [branchAfter_append, branchState_append]
  cases e with
  | markLocalFailure i =>
    rw [apply_ite ForkBranch.state, ← ih]
    exact ite_self _
  | markTrying i | response i statusCode message | status i statusCode =>
    rw [apply_ite ForkBranch.state, ih]
    rfl

variable {targets : List SipUri} {events : List ForkEvent}

theorem getElem?_told {i : ℕ}
    (h : agg.branches[i]? = (targets[i]?).map fun target => branchAfter target i events)
    (e : ForkEvent) :
  (agg.told e).branches[i]? = (targets[i]?).map fun target => branchAfter target i (events ++ [e])
  := by
  rw [told, getElem?_modify, h]
  cases targets[i]? with
  | none => rfl
  | some target =>
  simp only [Option.map_some, branchAfter_append]
  split <;> rfl

theorem getElem?_branches_run (targets : List SipUri) (strategy : ForkStrategy)
    (events : List ForkEvent)
    (h : (machine.run (new targets strategy) events).finalForwarded = false) (i : ℕ) :
  (machine.run (new targets strategy) events).branches[i]?
    = (targets[i]?).map fun target => branchAfter target i events
  := by
  induction events using reverseRecOn with
  | nil =>
    rw [Machine.run_nil, new, getElem?_map]
    rfl
  | append_singleton events e ih =>
    rw [Machine.run_append] at h ⊢
    have hbefore : (machine.run (new targets strategy) events).finalForwarded = false := by
      by_contra hsettled
      have hstays := (settled_step (Bool.not_eq_false _ ▸ hsettled) e).1
      exact absurd (h.symm.trans hstays) Bool.false_ne_true
    exact (congrArg (·[i]?) (branches_step h)).trans (getElem?_told (ih hbefore) e)

/-! ### Forks whose branches all fail -/

/-- Every branch delivers one final response, and is marked before it if the proxy made it. -/
structure Delivers (fates : List Fate) (events : List ForkEvent) : Prop where
  branch : ∀ e ∈ events, e.branch < fates.length
  final : ∀ i fate, fates[i]? = some fate → ∃ before after,
    (events.filter fun e => e.branch = i)
        = before ++ .response i fate.statusCode fate.message :: after
      ∧ (∀ e ∈ before ++ after, e.final = none)
      ∧ (.markLocalFailure i ∈ before ↔ fate.origin = .local) ∧ .markLocalFailure i ∉ after

theorem isEnd_after (hfinal : e.final = none) (hmark : e ≠ .markLocalFailure e.branch)
    (branch : ForkBranch) :
  (branch.after e).state.isEnd = false
  := by
  cases e with
  | markTrying => rfl
  | markLocalFailure => exact absurd rfl hmark
  | response i statusCode message | status i statusCode =>
    have hprovisional : isProvisional statusCode = true := by
      by_contra h
      simp [final, h] at hfinal
    simp [ForkBranch.after, ofStatus, hprovisional, isEnd]

theorem origin_foldl_after (h : ∀ e ∈ events, e.branch = index) (branch : ForkBranch) :
  (events.foldl ForkBranch.after branch).origin = .local
    ↔ branch.origin = .local ∨ .markLocalFailure index ∈ events
  := by
  induction events generalizing branch with
  | nil => simp
  | cons e events ih =>
  rw [foldl_cons, ih fun d hd => h d (mem_cons_of_mem _ hd)]
  have hbranch := h e mem_cons_self
  cases e with
  | markLocalFailure i =>
    cases hbranch
    simp [ForkBranch.after, ForkEvent.branch]
  | markTrying | response | status => simp [ForkBranch.after]

variable {seen rest : List ForkEvent}

/-- A branch that has ended is as its final response left it. -/
theorem Delivers.view_branchAfter (h : Delivers fates (seen ++ rest)) {i : ℕ} {fate : Fate}
    (hfate : fates[i]? = some fate) (hclass : 300 ≤ fate.statusCode)
    (hend : (branchState i seen).isEnd = true) (target : SipUri) :
  view (branchAfter target i seen) = fate.view
  := by
  obtain ⟨before, after, hfilter, hnone, hmark, hlate⟩ := h.final i fate hfate
  obtain ⟨e, hseen, statusCode, hfinal⟩ := hasFinal_of_isEnd hend
  have hmem : e ∈ seen.filter fun e => e.branch = i := by
    simp [hseen, branch_of_final hfinal]
  have hbefore (hin : e ∈ before) : False := by
    rw [hnone e (mem_append_left _ hin)] at hfinal
    cases hfinal
  rw [← state_branchAfter target, branchAfter] at hend
  rw [branchAfter]
  rw [filter_append] at hfilter
  obtain ⟨more, hmore, -⟩ | ⟨more, hmore, hsplit⟩ := append_eq_append_iff.mp hfilter
  · exact (hbefore (hmore ▸ mem_append_left _ hmem)).elim
  cases more with
  | nil =>
    rw [hmore, append_nil] at hmem
    exact (hbefore hmem).elim
  | cons d more =>
    injection hsplit with hd hafter
    subst hd
    -- Nothing but the mark leaves a branch ended, and the mark does not come any more.
    obtain rfl | ⟨more, d, rfl⟩ := eq_nil_or_concat more
    · rw [hmore] at hend hmem ⊢
      have hbranch : ∀ e ∈ before, e.branch = i := by
        intro e he
        have hin : e ∈ seen.filter fun e => e.branch = i := hmore ▸ mem_append_left _ he
        simpa using (mem_filter.mp hin).2
      rw [foldl_append, foldl_cons, foldl_nil]
      have horigin := origin_foldl_after hbranch ⟨target, .pending, .peer, none⟩
      simp only [reduceCtorEq, false_or, hmark] at horigin
      have hstate := ofStatus_final (show 200 ≤ fate.statusCode by omega)
      simp only [view, Fate.view, ForkBranch.after, hstate, if_pos hclass, Prod.mk.injEq, true_and,
        and_true]
      exact ResponseOrigin.eq_of_local_iff horigin
    · rw [concat_eq_append] at hmore hafter
      have hd : d ∈ after := by simp [hafter]
      have hbranch : d.branch = i := by
        have hin : d ∈ seen.filter fun e => e.branch = i := by simp [hmore]
        simpa using (mem_filter.mp hin).2
      have hmark' : d ≠ .markLocalFailure d.branch := by
        rintro heq
        rw [heq, hbranch] at hd
        exact hlate hd
      rw [hmore, ← cons_append, ← append_assoc, foldl_append, foldl_cons,
        foldl_nil, isEnd_after (hnone d (mem_append_right _ hd)) hmark'] at hend
      cases hend

theorem all_isEnd_step (hstrategy : agg.strategy = .parallel)
    (hanswered : ∀ state ∈ agg.states, state.isAnswered = true → agg.finalForwarded = true)
    (h : agg.states.all isEnd = true → agg.finalForwarded = true) (e : ForkEvent)
    (hall : (machine.step agg e).1.states.all isEnd = true) :
  (machine.step agg e).1.finalForwarded = true
  := by
  rw [finalForwarded_step hstrategy hanswered]
  have hstates := states_step agg e
  cases heffect : e.effect with
  | none =>
    rw [heffect] at hstates
    dsimp only at hstates
    exact .inl (h (hstates ▸ hall))
  | some effect =>
    obtain ⟨index, state⟩ := effect
    rw [heffect] at hstates
    dsimp only at hstates
    by_cases hlt : index < agg.states.length
    · have hend : state.isEnd = true := by
        rw [hstates] at hall
        exact all_eq_true.mp hall state (mem_set hlt state)
      obtain ⟨statusCode, hfinal, rfl⟩ := final_of_effect heffect hend
      exact .inr ⟨index, statusCode, hfinal, hlt, .inr (hstates ▸ hall)⟩
    · rw [set_eq_of_length_le (not_lt.mp hlt)] at hstates
      exact .inl (h (hstates ▸ hall))

theorem finalForwarded_of_isEnd (hne : targets ≠ [])
    (h : ∀ i < targets.length, (branchState i events).isEnd = true) :
  (machine.run (new targets .parallel) events).finalForwarded = true
  := by
  have hrun : History targets.length events (machine.run (new targets .parallel) events)
      ∧ ((machine.run (new targets .parallel) events).states.all isEnd = true →
        (machine.run (new targets .parallel) events).finalForwarded = true) := by
    apply @Machine.history _ _ _ machine (fun events agg => History targets.length events agg
      ∧ (agg.states.all isEnd = true → agg.finalForwarded = true))
    · rintro events agg e ⟨hhistory, hall⟩
      exact ⟨hhistory.append e, all_isEnd_step hhistory.strategy hhistory.answered hall e⟩
    refine ⟨history_new targets, ?_⟩
    intro hall
    obtain ⟨target, targets, rfl⟩ := exists_cons_of_ne_nil hne
    cases hall
  exact hrun.2 (hrun.1.all_isEnd_iff.mpr h)

theorem Ended.isComplete (h : agg.Ended fates) :
  agg.isComplete = true
  := by
  have hall : agg.isComplete = (agg.branches.map view).all fun entry => entry.1.isEnd := by
    rw [all_map]
    rfl
  rw [hall, h, all_map, all_eq_true]
  intro fate _
  rfl

theorem Delivers.ended (h : Delivers fates (seen ++ rest)) (hlength : targets.length = fates.length)
    (hclass : ∀ fate ∈ fates, 300 ≤ fate.statusCode)
    (hend : ∀ i < targets.length, (branchState i seen).isEnd = true)
    (hagg : ∀ i : ℕ, agg.branches[i]? = (targets[i]?).map fun target => branchAfter target i seen) :
  agg.Ended fates
  := by
  apply ext_getElem?
  intro i
  rw [getElem?_map, getElem?_map, hagg]
  by_cases hlt : i < targets.length
  · have hfate : fates[i]? = some fates[i] := getElem?_eq_getElem (hlength ▸ hlt)
    have hview := h.view_branchAfter hfate (hclass _ (getElem_mem _)) (hend i hlt) targets[i]
    rw [hfate, getElem?_eq_getElem hlt]
    exact congrArg some hview
  · rw [getElem?_eq_none (not_lt.mp hlt), getElem?_eq_none (by omega)]
    rfl

theorem Delivers.fate (h : Delivers fates events) (he : e ∈ events)
    (hfinal : e.final = some (index, statusCode)) :
  ∃ fate, fates[index]? = some fate ∧ e = .response index fate.statusCode fate.message
  := by
  have hbranch := branch_of_final hfinal
  have hlt : index < fates.length := hbranch ▸ h.branch e he
  obtain ⟨before, after, hfilter, hnone, -⟩ :=
    h.final index _ (getElem?_eq_getElem hlt)
  refine ⟨fates[index], getElem?_eq_getElem hlt, ?_⟩
  have hmem : e ∈ events.filter fun e => e.branch = index := by simp [he, hbranch]
  rw [hfilter, mem_append, mem_cons] at hmem
  have hother (hin : e ∈ before ++ after) : False := by
    rw [hnone e hin] at hfinal
    cases hfinal
  obtain hin | heq | hin := hmem
  · exact (hother (mem_append_left _ hin)).elim
  · exact heq
  · exact (hother (mem_append_right _ hin)).elim

/-- The event that settles the fork is the response of a branch, and with it all have failed. -/
theorem Delivers.settles {before after : List ForkEvent} (h : Delivers fates (before ++ e :: after))
    (hlength : targets.length = fates.length)
    (hclass : ∀ fate ∈ fates, 300 ≤ fate.statusCode ∧ fate.statusCode < 600)
    (hagg : machine.run (new targets .parallel) before = agg) (hbefore : agg.finalForwarded = false)
    (hafter : (machine.step agg e).1.finalForwarded = true) :
  ∃ index statusCode message, e = .response index statusCode message
    ∧ agg.onResponse index statusCode message = (agg.told e).settleOnBestFailure
    ∧ (agg.told e).Ended fates
  := by
  have hhistory := history_run targets before
  have hbranches := getElem?_branches_run targets .parallel before
  rw [hagg] at hhistory hbranches
  have hrun : (machine.step agg e).1 = machine.run (new targets .parallel) (before ++ [e]) := by
    rw [Machine.run_append, hagg]
    rfl
  rw [finalForwarded_step hhistory.strategy hhistory.answered, hbefore] at hafter
  obtain hold | ⟨index, statusCode, hfinal, hlt, hsettled⟩ := hafter
  · cases hold
  obtain ⟨fate, hfate, rfl⟩ := h.fate (by simp) hfinal
  obtain ⟨hlow, hhigh⟩ := hclass fate (mem_of_getElem? hfate)
  have hsame : fate.statusCode = statusCode := by
    simp only [ForkEvent.final] at hfinal
    split at hfinal
    · cases hfinal
    · injection hfinal with hpair
      exact congrArg Prod.snd hpair
  have hall : ∀ i < targets.length, (branchState i
      (before ++ [.response index fate.statusCode fate.message])).isEnd = true := by
    obtain hdecisive | hall := hsettled
    · simp only [isDecisive, Bool.or_eq_true, Bool.and_eq_true, decide_eq_true_eq] at hdecisive
      omega
    · rw [← states_step_of_final hfinal, hrun] at hall
      exact (history_run targets _).all_isEnd_iff.mp hall
  rw [append_cons] at h
  have hended := h.ended hlength (fun fate hmem => (hclass fate hmem).1) hall
    fun i => getElem?_told (hbranches hbefore i) _
  refine ⟨index, fate.statusCode, fate.message, rfl, ?_, hended⟩
  have hlt' : index < agg.branches.length := by simpa [states] using hlt
  rw [onResponse_failure hbefore hlt' hlow, if_neg (not_le.mpr hhigh), onFailure]
  have hstrategy : (agg.told (.response index fate.statusCode fate.message)).strategy = .parallel :=
    hhistory.strategy
  rw [hstrategy]
  exact if_pos hended.isComplete

/-- A parallel fork in which every branch delivers one final response, a 3xx, 4xx or 5xx.  What
answers the fork is the verdict on these responses, whatever the order they came in; the fork is
answered once if no branch has anything else after its final response; and no branch has a failure
that ranks above the one chosen. -/
theorem answer_of_fates (targets : List SipUri) (fates : List Fate) (events : List ForkEvent)
    (hlength : targets.length = fates.length)
    (hclass : ∀ fate ∈ fates, 300 ≤ fate.statusCode ∧ fate.statusCode < 600)
    (h : Delivers fates events) :
  (∀ before e after action, events = before ++ e :: after →
      action ∈ (machine.step (machine.run (new targets .parallel) before) e).2 →
      action.settles = true →
      ∃ status response, verdict fates = some (status, response)
        ∧ action = .forwardBestError status
        ∧ ∃ index statusCode message, e = .response index statusCode message
          ∧ ((machine.run (new targets .parallel) before).onResponse index statusCode
            message).1.takeBestResponse.2 = some response)
    ∧ (fates ≠ [] → (∀ i < targets.length, (branchState i events).isEnd = true) →
      (new targets .parallel).settlements events = 1)
    ∧ (fates ≠ [] → ∃ best ∈ fates, (verdict fates).map Prod.fst = some best.statusCode
      ∧ ∀ other ∈ fates, best.rank.lt other.rank = false)
  := by
  refine ⟨?_, ?_, verdict_best⟩
  · rintro before e after action rfl haction hsettles
    have hcount := settles_step (machine.run (new targets .parallel) before) e
    have hpos : 0 < (machine.step (machine.run (new targets .parallel) before) e).2.countP
        ForkAction.settles :=
      countP_pos_iff.mpr ⟨action, haction, hsettles⟩
    rw [hcount, Nat.pos_iff_ne_zero, ne_eq, Bool.toNat_eq_zero, Bool.not_eq_false,
      Bool.and_eq_true, Bool.not_eq_true'] at hpos
    obtain ⟨index, statusCode, message, rfl, honResponse, hended⟩ :=
      h.settles hlength hclass rfl hpos.1 hpos.2
    have hlt := h.branch (.response index statusCode message) (by simp)
    have hne : fates ≠ [] := ne_nil_of_length_pos (Nat.zero_lt_of_lt hlt)
    obtain ⟨status, response, hverdict, hsettle⟩ :=
      hended.settleOnBestFailure hne fun fate hmem => (hclass fate hmem).1
    rw [hsettle] at honResponse
    refine ⟨status, response, hverdict, ?_, index, statusCode, message, rfl, ?_⟩
    · have hsame : action = ((machine.run (new targets .parallel) before).onResponse index
          statusCode message).2 :=
        mem_singleton.mp haction
      rw [hsame, honResponse]
    · rw [honResponse]
      rfl
  · intro hne hend
    have htargets : targets ≠ [] := by
      rintro rfl
      exact hne (length_eq_zero_iff.mp hlength.symm)
    rw [settlements_eq, finalForwarded_of_isEnd htargets hend]
    rfl

/-- One of two users is busy and the other cannot be reached. -/
def busyAndUnreachable : List Fate :=
  [⟨486, reply 486, .peer⟩, ⟨503, reply 503, .local⟩]

/-- The responses of the two, the last one first. -/
def unreachableFirst : List ForkEvent :=
  [.markTrying 0, .markTrying 1, .response 0 180 (reply 180), .markLocalFailure 1,
    .response 1 503 (reply 503), .response 0 486 (reply 486)]

theorem delivers_unreachableFirst :
  Delivers busyAndUnreachable unreachableFirst
  where
  branch := by decide
  final i fate h := by
    obtain ⟨hlt, rfl⟩ := List.getElem?_eq_some_iff.mp h
    have hcases : i = 0 ∨ i = 1 := by
      simp [busyAndUnreachable] at hlt
      omega
    obtain rfl | rfl := hcases
    · exact ⟨[.markTrying 0, .response 0 180 (reply 180)], [], rfl, by decide,
        by simp [busyAndUnreachable], by simp⟩
    · exact ⟨[.markTrying 1, .markLocalFailure 1], [], rfl, by decide,
        by simp [busyAndUnreachable], by simp⟩

/-- A fork to a busy user and to one that cannot be reached is answered once, with the 486. -/
theorem answer_of_busyAndUnreachable :
  (new twoTargets .parallel).settlements unreachableFirst = 1
    ∧ ∃ best ∈ busyAndUnreachable,
      (verdict busyAndUnreachable).map Prod.fst = some best.statusCode ∧ best.statusCode = 486
  := by
  have h := answer_of_fates twoTargets busyAndUnreachable unreachableFirst rfl (by decide)
    delivers_unreachableFirst
  refine ⟨h.2.1 (by simp [busyAndUnreachable]) (by decide), ?_⟩
  obtain ⟨best, hmem, hverdict, -⟩ := h.2.2 (by simp [busyAndUnreachable])
  refine ⟨best, hmem, hverdict, ?_⟩
  have h486 : (verdict busyAndUnreachable).map Prod.fst = some 486 := by decide
  exact Option.some.inj (hverdict.symm.trans h486)

end ForkAggregator

end Siphon.Proxy
