import Siphon.B2bua.CallStore

/-!
# The registry against the calls

The registry matches the calls of a store when it says of every leg which call it belongs to, and
nothing of calls that are not there.
-/

namespace Siphon.B2bua

open List LegRegistry

def CallActor.names (call : CallActor) : List Text :=
  call.legs.map (·.callId) ++ (call.adoption.bind (·.aliasCallId)).toList

/-- A call is stored under its own id, and has another name only once it is merged. -/
structure CallActor.Keyed (call : CallActor) (id : Text) : Prop where
  id : call.id = id
  seated : ∀ adoption, call.adoption = some adoption → adoption.aliasCallId ≠ none →
    adoption.seated = true

theorem CallActor.Keyed.alias_eq_none {call : CallActor} {id : Text} (h : call.Keyed id)
    {adoption : Adoption} (hadoption : call.adoption = some adoption)
    (hseated : adoption.seated = false) :
  adoption.aliasCallId = none
  := by
  by_contra halias
  rw [h.seated adoption hadoption halias] at hseated
  cases hseated

/-- A leg goes on as another: it is found by the same branch and Call-ID. -/
structure Leg.GoesOn (leg other : Leg) : Prop where
  id : other.id = leg.id
  branch : other.branch = leg.branch
  callId : other.callId = leg.callId
  tracking : leg.isTrackingLeg = true → other.isTrackingLeg = true

theorem Leg.GoesOn.refl (leg : Leg) :
  leg.GoesOn leg :=
  ⟨rfl, rfl, rfl, fun h => h⟩

theorem Leg.GoesOn.trans {leg other third : Leg} (h : leg.GoesOn other) (h' : other.GoesOn third) :
  leg.GoesOn third :=
  ⟨h'.id.trans h.id, h'.branch.trans h.branch, h'.callId.trans h.callId,
    fun htracking => h'.tracking (h.tracking htracking)⟩

namespace CallStore

/-! ### What a store holds -/

section

variable (store : CallStore)

def legsOf (id : Text) : List Leg :=
  (store.calls.get? id).elim [] CallActor.legs

def branchesOf (id : Text) : List Text :=
  (store.legsOf id).map (·.branch)

def namesOf (id : Text) : List Text :=
  (store.calls.get? id).elim [] CallActor.names

def Fresh (branch : Text) : Prop :=
  ∀ id, branch ∉ store.branchesOf id

end

variable {store store' : CallStore} {retired : List Leg} {id : Text} {call : CallActor}

@[simp] theorem put_registry (store : CallStore) (id : Text) (call : CallActor) :
  (store.put id call).registry = store.registry :=
  rfl

section

variable (h : store.calls.get? id = some call)
include h

theorem legsOf_of_get? :
  store.legsOf id = call.legs
  := by
  rw [legsOf, h]
  rfl

theorem namesOf_of_get? :
  store.namesOf id = call.names
  := by
  rw [namesOf, h]
  rfl

theorem branchesOf_of_get? :
  store.branchesOf id = call.legs.map (·.branch)
  := by
  rw [branchesOf, legsOf_of_get? h]

end

theorem branchesOf_of_none (h : store.calls.get? id = none) :
  store.branchesOf id = []
  := by
  rw [branchesOf, legsOf, h]
  rfl

theorem mem_branchesOf {leg : Leg} (h : leg ∈ store.legsOf id) :
  leg.branch ∈ store.branchesOf id :=
  mem_map_of_mem h

theorem mem_names_of_leg {leg : Leg} (h : leg ∈ call.legs) :
  leg.callId ∈ call.names :=
  mem_append_left _ (mem_map_of_mem h)

/-! ### What the registry says after an operation -/

variable {registry : LegRegistry} {sipCallId : Text}

theorem owns_foldl_forget {live : Text → Bool} {owners : List Text} {other otherCallId : Text} :
  (owners.foldl (fun registry owner =>
      if live owner then registry else registry.removeCallId sipCallId owner) registry).Owns
    other otherCallId ↔
  registry.Owns other otherCallId ∧
    ¬(otherCallId = sipCallId ∧ other ∈ owners ∧ live other = false)
  := by
  induction owners generalizing registry with
  | nil => simp
  | cons owner owners ih =>
  rw [foldl_cons, ih]
  cases hlive : live owner with
  | true =>
    rw [if_pos rfl, mem_cons]
    refine and_congr_right fun _ => not_congr ?_
    constructor
    · rintro ⟨hsame, hmem, hended⟩
      exact ⟨hsame, .inr hmem, hended⟩
    rintro ⟨hsame, rfl | hmem, hended⟩
    · rw [hlive] at hended
      cases hended
    · exact ⟨hsame, hmem, hended⟩
  | false =>
    rw [if_neg Bool.false_ne_true, owns_removeCallId, mem_cons]
    constructor
    · rintro ⟨⟨howns, hnot⟩, hrest⟩
      refine ⟨howns, ?_⟩
      rintro ⟨hsame, rfl | hmem, hended⟩
      · exact hnot ⟨rfl, hsame⟩
      · exact hrest ⟨hsame, hmem, hended⟩
    · rintro ⟨howns, hnot⟩
      refine ⟨⟨howns, ?_⟩, ?_⟩
      · rintro ⟨rfl, hsame⟩
        exact hnot ⟨hsame, .inl rfl, hlive⟩
      · rintro ⟨hsame, hmem, hended⟩
        exact hnot ⟨hsame, .inr hmem, hended⟩

theorem owns_forgetEndedOwners {other otherCallId : Text} :
  (store.forgetEndedOwners sipCallId).registry.Owns other otherCallId ↔
    store.registry.Owns other otherCallId ∧
      (otherCallId = sipCallId → (store.calls.get? other).isSome)
  := by
  rw [forgetEndedOwners, @owns_foldl_forget _ _ fun owner => (store.calls.get? owner).isSome]
  refine and_congr_right fun howns => ?_
  rw [mem_lookupCallIds]
  constructor
  · rintro hnot rfl
    by_contra hended
    exact hnot ⟨rfl, howns, by simpa using hended⟩
  · rintro hlive ⟨rfl, -, hended⟩
    rw [hlive rfl] at hended
    cases hended

theorem foldl_forget_frame {live : Text → Bool} {owners : List Text} :
  let forgotten := owners.foldl (fun registry owner =>
    if live owner then registry else registry.removeCallId sipCallId owner) registry
  (∀ branch, forgotten.lookupBranch branch = registry.lookupBranch branch) ∧
    ∀ other, forgotten.Originates other ↔ registry.Originates other
  := by
  induction owners generalizing registry with
  | nil => exact ⟨fun _ => rfl, fun _ => Iff.rfl⟩
  | cons owner owners ih =>
  rw [foldl_cons]
  split
  · exact ih
  · exact ih

@[simp] theorem lookupBranch_forgetEndedOwners (sipCallId branch : Text) :
  (store.forgetEndedOwners sipCallId).registry.lookupBranch branch =
    store.registry.lookupBranch branch :=
  foldl_forget_frame.1 branch

@[simp] theorem originates_forgetEndedOwners (sipCallId other : Text) :
  (store.forgetEndedOwners sipCallId).registry.Originates other ↔
    store.registry.Originates other :=
  foldl_forget_frame.2 other

theorem lookupBranch_repointBranch (store : CallStore) (id oldBranch newBranch branch : Text) :
  (store.repointBranch id oldBranch newBranch).registry.lookupBranch branch =
    if branch = newBranch then some id else if branch = oldBranch then none
      else store.registry.lookupBranch branch
  := by
  rw [repointBranch]
  split
  · simp
  rename_i hsame
  rw [not_not] at hsame
  subst hsame
  by_cases hbranch : branch = oldBranch <;> simp [hbranch]

theorem repointBranch_frame (store : CallStore) (id oldBranch newBranch : Text) :
  (∀ other sipCallId, (store.repointBranch id oldBranch newBranch).registry.Owns other sipCallId ↔
    store.registry.Owns other sipCallId) ∧
  ∀ other, (store.repointBranch id oldBranch newBranch).registry.Originates other ↔
    store.registry.Originates other
  := by
  rw [repointBranch]
  split <;> simp

theorem foldl_retireLeg (legs : List Leg) :
  let after := legs.foldl (retireLeg id) registry
  (∀ branch, after.lookupBranch branch =
    if branch ∈ legs.map (·.branch) then none else registry.lookupBranch branch) ∧
  (∀ other sipCallId, after.Owns other sipCallId ↔ registry.Owns other sipCallId ∧
    ¬(other = id ∧ sipCallId ∈ legs.map (·.callId))) ∧
  ∀ other, after.Originates other ↔ registry.Originates other
  := by
  induction legs generalizing registry with
  | nil => simp
  | cons leg legs ih =>
  obtain ⟨hlookup, howns, horigin⟩ := @ih (retireLeg id registry leg)
  refine ⟨?_, ?_, ?_⟩
  · intro branch
    rw [foldl_cons, hlookup]
    simp only [retireLeg, lookupBranch_removeBranch,
      lookupBranch_removeCallId, map_cons, mem_cons]
    by_cases hmem : branch ∈ legs.map (·.branch)
    · simp [hmem]
    · simp [hmem]
  · intro other sipCallId
    rw [foldl_cons, howns]
    simp only [retireLeg, owns_removeBranch, owns_removeCallId,
      map_cons, mem_cons]
    tauto
  · intro other
    rw [foldl_cons, horigin]
    simp [retireLeg]

theorem owns_adoptionEnded {other : Text} :
  (adoptionEnded registry id call).Owns other sipCallId ↔ registry.Owns other sipCallId ∧
    ¬(other = id ∧ sipCallId ∈ (call.adoption.bind (·.aliasCallId)).toList)
  := by
  rw [adoptionEnded]
  cases call.adoption.bind (·.aliasCallId) with
  | none | some => simp

theorem adoptionEnded_frame :
  (∀ branch, (adoptionEnded registry id call).lookupBranch branch = registry.lookupBranch branch) ∧
    ∀ other, (adoptionEnded registry id call).Originates other ↔ registry.Originates other
  := by
  rw [adoptionEnded]
  cases call.adoption.bind (·.aliasCallId) with
  | none | some => simp

/-! ### The registry matches the calls -/

/-- The registry says of every leg, but for those a transfer retired, which call it belongs to, and
it says nothing of other calls. -/
structure Matches (retired : List Leg) (store : CallStore) : Prop where
  keyed : ∀ id call, store.calls.get? id = some call → call.Keyed id
  nodup : ∀ id, (store.branchesOf id).Nodup
  apart : ∀ id other branch, branch ∈ store.branchesOf id → branch ∈ store.branchesOf other →
    id = other
  branch : ∀ id branch, store.registry.lookupBranch branch = some id →
    branch ∈ store.branchesOf id
  callId : ∀ id sipCallId, store.registry.Owns id sipCallId → sipCallId ∈ store.namesOf id
  originated : ∀ id, store.registry.Originates id → (store.calls.get? id).isSome
  resolves : ∀ id, ∀ leg ∈ store.legsOf id, leg.isTrackingLeg = false →
    leg.id ∉ retired.map (·.id) →
    store.registry.lookupBranch leg.branch = some id ∧ store.registry.Owns id leg.callId

theorem Matches.eq_of_lookup (h : store.Matches retired) {branch other : Text}
    (hmem : branch ∈ store.branchesOf id)
    (hlookup : store.registry.lookupBranch branch = some other) :
  other = id :=
  h.apart _ _ _ (h.branch other branch hlookup) hmem

theorem Matches.live_of_owns (h : store.Matches retired)
    (howns : store.registry.Owns id sipCallId) :
  (store.calls.get? id).isSome
  := by
  have hname := h.callId id sipCallId howns
  cases hget : store.calls.get? id with
  | none => simp [namesOf, hget] at hname
  | some call => rfl

variable {retired' : List Leg}

theorem Matches.weaken (h : store.Matches retired) (hretired : retired ⊆ retired') :
  store.Matches retired'
  := by
  refine ⟨h.keyed, h.nodup, h.apart, h.branch, h.callId, h.originated, ?_⟩
  intro id leg hmem htracking hkept
  exact h.resolves id leg hmem htracking fun hold => hkept (map_subset _ hretired hold)

/-- The registry matches the calls after one of them has changed, or has gone, if it matches what is
left of that one. -/
theorem Matches.change (h : store.Matches retired) (hretired : retired ⊆ retired')
    {calls : IndexMap Text CallActor} {call? : Option CallActor} {legs : List Leg}
    (hcalls : ∀ other, calls.get? other = if other = id then call? else store.calls.get? other)
    (hlegs : call?.elim [] CallActor.legs = legs) (hkeyed : ∀ call ∈ call?, call.Keyed id)
    (hnodup : (legs.map (·.branch)).Nodup)
    (hfresh : ∀ leg ∈ legs, leg.branch ∈ store.branchesOf id ∨ store.Fresh leg.branch)
    (hlookup : ∀ branch, branch ∉ store.branchesOf id → branch ∉ legs.map (·.branch) →
      registry.lookupBranch branch = store.registry.lookupBranch branch)
    (hbranch : ∀ branch other, branch ∈ store.branchesOf id ∨ branch ∈ legs.map (·.branch) →
      registry.lookupBranch branch = some other → other = id ∧ branch ∈ legs.map (·.branch))
    (howns : ∀ other sipCallId, other ≠ id →
      (registry.Owns other sipCallId ↔ store.registry.Owns other sipCallId))
    (hcallId : ∀ sipCallId, registry.Owns id sipCallId → sipCallId ∈ call?.elim [] CallActor.names)
    (horiginated : ∀ other, registry.Originates other →
      store.registry.Originates other ∧ (other = id → call?.isSome))
    (hresolves : ∀ leg ∈ legs, leg.isTrackingLeg = false → leg.id ∉ retired'.map (·.id) →
      registry.lookupBranch leg.branch = some id ∧ registry.Owns id leg.callId) :
  Matches retired' ⟨calls, registry⟩
  := by
  have hlegsOf : ∀ other, legsOf ⟨calls, registry⟩ other =
      if other = id then legs else store.legsOf other := by
    intro other
    rw [legsOf, hcalls, ← hlegs]
    split <;> rfl
  have hbranchesOf : ∀ other, branchesOf ⟨calls, registry⟩ other =
      if other = id then legs.map (·.branch) else store.branchesOf other := by
    intro other
    rw [branchesOf, hlegsOf]
    split <;> rfl
  -- A branch of another call is none of this one's, before or after.
  have hforeign : ∀ other branch, other ≠ id → branch ∈ store.branchesOf other →
      branch ∉ store.branchesOf id ∧ branch ∉ legs.map (·.branch) := by
    intro other branch hother hmem
    have hold : branch ∉ store.branchesOf id := fun hid => hother (h.apart _ _ _ hmem hid)
    refine ⟨hold, fun hnew => ?_⟩
    obtain ⟨leg, hleg, rfl⟩ := mem_map.mp hnew
    exact (hfresh leg hleg).elim hold fun hnone => hnone other hmem
  constructor
  · intro other call hget
    rw [hcalls] at hget
    split at hget
    · rename_i hid
      exact hid ▸ hkeyed call hget
    · exact h.keyed other call hget
  · intro other
    rw [hbranchesOf]
    split
    · exact hnodup
    · exact h.nodup other
  · intro first second branch hfirst hsecond
    rw [hbranchesOf] at hfirst hsecond
    split at hfirst <;> split at hsecond
    · rename_i hone htwo
      rw [hone, htwo]
    · rename_i htwo
      exact absurd hfirst (hforeign second branch htwo hsecond).2
    · rename_i hone _
      exact absurd hsecond (hforeign first branch hone hfirst).2
    · exact h.apart _ _ _ hfirst hsecond
  · intro other branch hfound
    rw [hbranchesOf]
    by_cases hmem : branch ∈ store.branchesOf id ∨ branch ∈ legs.map (·.branch)
    · obtain ⟨rfl, hnew⟩ := hbranch branch other hmem hfound
      rwa [if_pos rfl]
    rw [not_or] at hmem
    have hold := h.branch other branch (hlookup branch hmem.1 hmem.2 ▸ hfound)
    rwa [if_neg fun heq : other = id => hmem.1 (heq ▸ hold)]
  · intro other sipCallId hown
    rw [namesOf, hcalls]
    split
    · rename_i hid
      exact hcallId sipCallId (hid ▸ hown)
    · rename_i hother
      exact h.callId other sipCallId ((howns other sipCallId hother).mp hown)
  · intro other horigin
    obtain ⟨hold, hlive⟩ := horiginated other horigin
    rw [hcalls]
    split
    · rename_i hid
      exact hlive hid
    · exact h.originated other hold
  · intro other leg hmem htracking hkept
    rw [hlegsOf] at hmem
    split at hmem
    · rename_i hid
      exact hid ▸ hresolves leg hmem htracking hkept
    rename_i hother
    have hlive : leg.id ∉ retired.map (·.id) :=
      fun hold => hkept (map_subset _ hretired hold)
    obtain ⟨hfound, hown⟩ := h.resolves other leg hmem htracking hlive
    obtain ⟨hold, hnew⟩ := hforeign other leg.branch hother (mem_branchesOf hmem)
    exact ⟨(hlookup _ hold hnew).trans hfound, (howns other _ hother).mpr hown⟩

/-- The registry matches the calls after one has gone with all that named it. -/
theorem Matches.gone (h : store.Matches retired)
    (hlookup : ∀ branch, registry.lookupBranch branch =
      if branch ∈ store.branchesOf id then none else store.registry.lookupBranch branch)
    (howns : ∀ other sipCallId, registry.Owns other sipCallId ↔
      other ≠ id ∧ store.registry.Owns other sipCallId)
    (horiginated : ∀ other, registry.Originates other →
      other ≠ id ∧ store.registry.Originates other) :
  Matches retired ⟨store.calls.shiftRemove id, registry⟩
  := by
  refine h.change (List.Subset.refl _) (IndexMap.get?_shiftRemove _ _) rfl (by simp) nodup_nil
    (by simp) ?_ ?_ ?_ ?_ ?_ (by simp)
  · intro branch hold _
    rw [hlookup, if_neg hold]
  · intro branch other hmem hfound
    rw [hlookup, if_pos (hmem.resolve_right not_mem_nil)] at hfound
    cases hfound
  · intro other sipCallId hother
    exact (howns other sipCallId).trans (and_iff_right hother)
  · intro sipCallId hown
    exact absurd rfl ((howns id sipCallId).mp hown).1
  · intro other horigin
    obtain ⟨hother, hold⟩ := horiginated other horigin
    exact ⟨hold, fun hid => absurd hid hother⟩

/-! ### One call changes -/

section

variable {R : Leg → Leg → Prop} {legs others : List Leg} (h : List.Forall₂ R legs others)
include h

theorem map_eq_of_forall₂ {β : Type} {g : Leg → β}
    (hg : ∀ leg other, R leg other → g other = g leg) :
  others.map g = legs.map g
  := by
  induction h with
  | nil => rfl
  | cons hhead _ ih => rw [map_cons, map_cons, ih, hg _ _ hhead]

theorem exists_of_forall₂ {other : Leg} (hmem : other ∈ others) :
  ∃ leg ∈ legs, R leg other
  := by
  induction h with
  | nil => cases hmem
  | cons hhead _ ih =>
  rcases mem_cons.mp hmem with rfl | hmem
  · exact ⟨_, mem_cons_self, hhead⟩
  · obtain ⟨leg, hleg, hR⟩ := ih hmem
    exact ⟨leg, mem_cons_of_mem _ hleg, hR⟩

end

variable {call' : CallActor}

theorem Matches.goesOn (h : store.Matches retired) (hget : store.calls.get? id = some call)
    (hkeyed : call'.Keyed id) (hlegs : List.Forall₂ Leg.GoesOn call.legs call'.legs)
    (halias : call'.adoption.bind (·.aliasCallId) = call.adoption.bind (·.aliasCallId)) :
  (store.put id call').Matches retired
  := by
  have hbranches : call'.legs.map (·.branch) = store.branchesOf id := by
    rw [branchesOf_of_get? hget]
    exact map_eq_of_forall₂ hlegs fun _ _ hgoes => hgoes.branch
  have hnames : call'.names = store.namesOf id := by
    rw [namesOf_of_get? hget, CallActor.names, CallActor.names, halias]
    congr 1
    exact map_eq_of_forall₂ hlegs fun _ _ hgoes => hgoes.callId
  refine h.change (List.Subset.refl _) (fun other => IndexMap.get?_insert _ id other call')
    (Option.elim_some ..) (by simpa using hkeyed) ?_ ?_ (fun _ _ _ => rfl) ?_
    (fun _ _ _ => Iff.rfl) ?_ (fun _ h => ⟨h, fun _ => rfl⟩) ?_
  · exact hbranches ▸ h.nodup id
  · intro leg hmem
    exact .inl (hbranches ▸ mem_map_of_mem hmem)
  · intro branch other hmem hlookup
    rw [hbranches, or_self] at hmem
    exact ⟨h.eq_of_lookup hmem hlookup, hbranches ▸ hmem⟩
  · rw [Option.elim_some, hnames]
    exact h.callId id
  · intro leg hmem htracking hretired
    obtain ⟨old, hold, hgoes⟩ := exists_of_forall₂ hlegs hmem
    rw [hgoes.id] at hretired
    rw [hgoes.branch, hgoes.callId]
    refine h.resolves id old (legsOf_of_get? hget ▸ hold) ?_ hretired
    rw [← Bool.not_eq_true]
    intro hold
    rw [hgoes.tracking hold] at htracking
    cases htracking

section

variable (h : store.Matches retired) (hkeyed : call'.Keyed id)
  (howns : ∀ other sipCallId, other ≠ id →
    (registry.Owns other sipCallId ↔ store.registry.Owns other sipCallId))
  (hcallId : ∀ sipCallId, registry.Owns id sipCallId → sipCallId ∈ call'.names)
  (horiginated : ∀ other, registry.Originates other → store.registry.Originates other)
include h hkeyed howns hcallId horiginated

/-- The registry matches the calls after some legs of one have gone with their branches and others
have come.  A Call-ID may go as far as no leg that stays needs it. -/
theorem Matches.exchange {gone come rest : List Leg}
    (hperm : (store.legsOf id).Perm (gone ++ rest)) (hperm' : call'.legs.Perm (come ++ rest))
    (hcome : (come.map (·.branch)).Nodup)
    (hfresh : ∀ leg ∈ come, leg.branch ∈ gone.map (·.branch) ∨ store.Fresh leg.branch)
    (hlookup : ∀ branch, registry.lookupBranch branch =
      if branch ∈ come.map (·.branch) then some id else if branch ∈ gone.map (·.branch) then none
        else store.registry.lookupBranch branch)
    (hkept : ∀ leg ∈ rest, leg.isTrackingLeg = false →
      store.registry.Owns id leg.callId → registry.Owns id leg.callId)
    (hnew : ∀ leg ∈ come, leg.isTrackingLeg = false → leg.id ∉ retired.map (·.id) →
      registry.Owns id leg.callId) :
  Matches retired ⟨store.calls.insert id call', registry⟩
  := by
  have hbranches : ∀ branch, branch ∈ store.branchesOf id ↔
      branch ∈ gone.map (·.branch) ∨ branch ∈ rest.map (·.branch) := by
    intro branch
    rw [branchesOf, (hperm.map (·.branch)).mem_iff, map_append, mem_append]
  have hbranches' : ∀ branch, branch ∈ call'.legs.map (·.branch) ↔
      branch ∈ come.map (·.branch) ∨ branch ∈ rest.map (·.branch) := by
    intro branch
    rw [(hperm'.map (·.branch)).mem_iff, map_append, mem_append]
  obtain ⟨-, hnodup, hgone⟩ : _ ∧ (rest.map (·.branch)).Nodup ∧ _ := by
    have hold := h.nodup id
    rwa [branchesOf, (hperm.map (·.branch)).nodup_iff, map_append, nodup_append] at hold
  -- The new branches are none of those that stay.
  have hapart : ∀ leg ∈ come, leg.branch ∉ rest.map (·.branch) := by
    intro leg hleg hmem
    rcases hfresh leg hleg with hsame | hfresh
    · exact hgone _ hsame _ hmem rfl
    · exact hfresh id ((hbranches _).mpr (.inr hmem))
  have hapart' : ∀ branch ∈ rest.map (·.branch), branch ∉ come.map (·.branch) := by
    intro branch hmem hnew
    obtain ⟨leg, hleg, rfl⟩ := mem_map.mp hnew
    exact hapart leg hleg hmem
  refine h.change (List.Subset.refl _) (fun other => IndexMap.get?_insert _ id other call')
    (Option.elim_some ..) (by simpa using hkeyed) ?_ ?_ ?_ ?_ howns hcallId
    (fun other horigin => ⟨horiginated other horigin, fun _ => rfl⟩) ?_
  · rw [(hperm'.map (·.branch)).nodup_iff, map_append, nodup_append]
    exact ⟨hcome, hnodup, fun branch hnew other hmem heq => hapart' other hmem (heq ▸ hnew)⟩
  · intro leg hleg
    rcases mem_append.mp (hperm'.mem_iff.mp hleg) with hmem | hmem
    · exact (hfresh leg hmem).imp_left fun hold => (hbranches _).mpr (.inl hold)
    · exact .inl ((hbranches _).mpr (.inr (mem_map_of_mem hmem)))
  · intro branch hold hnot
    rw [hbranches, not_or] at hold
    rw [hbranches', not_or] at hnot
    rw [hlookup, if_neg hnot.1, if_neg hold.1]
  · intro branch other hmem hfound
    rw [hlookup] at hfound
    rw [hbranches] at hmem
    rw [hbranches'] at hmem ⊢
    split at hfound
    · rename_i hsame
      cases hfound
      exact ⟨rfl, .inl hsame⟩
    rename_i hother
    split at hfound
    · cases hfound
    rename_i hotherold
    have hrest : branch ∈ rest.map (·.branch) :=
      hmem.elim (·.resolve_left hotherold) (·.resolve_left hother)
    exact ⟨h.eq_of_lookup ((hbranches _).mpr (.inr hrest)) hfound, .inr hrest⟩
  · intro leg hleg htracking hretired
    rcases mem_append.mp (hperm'.mem_iff.mp hleg) with hmem | hmem
    · rw [hlookup, if_pos (mem_map_of_mem hmem)]
      exact ⟨rfl, hnew leg hmem htracking hretired⟩
    have hstays : leg.branch ∈ rest.map (·.branch) := mem_map_of_mem hmem
    have hold := hperm.mem_iff.mpr (mem_append_right _ hmem)
    obtain ⟨hfound, hown⟩ := h.resolves id leg hold htracking hretired
    refine ⟨?_, hkept leg hmem htracking hown⟩
    rw [hlookup, if_neg (hapart' _ hstays), if_neg fun hmem => hgone _ hmem _ hstays rfl, hfound]

/-- The registry matches the calls after one leg of a call has gone with its branch. -/
theorem Matches.drop {gone : Leg} (hget : store.calls.get? id = some call)
    (hperm : call.legs.Perm (gone :: call'.legs))
    (hlookup : ∀ branch, registry.lookupBranch branch =
      if branch = gone.branch then none else store.registry.lookupBranch branch)
    (hkept : ∀ leg ∈ call'.legs, leg.isTrackingLeg = false →
      store.registry.Owns id leg.callId → registry.Owns id leg.callId) :
  Matches retired ⟨store.calls.insert id call', registry⟩
  := by
  have hgone : (store.legsOf id).Perm ([gone] ++ call'.legs) := legsOf_of_get? hget ▸ hperm
  have hnone : call'.legs.Perm ([] ++ call'.legs) := .refl _
  refine h.exchange hkeyed howns hcallId horiginated hgone hnone nodup_nil (by simp) ?_ hkept
    (by simp)
  simpa using hlookup

end

theorem mem_names_of_perm {gone come rest : List Leg} (hperm : call.legs.Perm (gone ++ rest))
    (hperm' : call'.legs.Perm (come ++ rest)) (hadoption : call'.adoption = call.adoption)
    (hname : sipCallId ∈ call.names) (hother : sipCallId ∉ gone.map (·.callId)) :
  sipCallId ∈ call'.names
  := by
  rw [CallActor.names, mem_append, (hperm.map (·.callId)).mem_iff, map_append, mem_append] at hname
  rw [CallActor.names, mem_append, (hperm'.map (·.callId)).mem_iff, map_append,
    mem_append, hadoption]
  exact hname.imp_left fun hleg => .inr (hleg.resolve_left hother)

theorem mem_names_of_drop {gone : Leg} (hperm : call.legs.Perm (gone :: call'.legs))
    (hadoption : call'.adoption = call.adoption) (hname : sipCallId ∈ call.names)
    (hother : sipCallId ≠ gone.callId) :
  sipCallId ∈ call'.names
  := by
  have hgone : call.legs.Perm ([gone] ++ call'.legs) := hperm
  have hnone : call'.legs.Perm ([] ++ call'.legs) := .refl _
  exact mem_names_of_perm hgone hnone hadoption hname fun hmem => hother (mem_singleton.mp hmem)

theorem Matches.originate (h : store.Matches retired)
    (hlookup : ∀ branch, registry.lookupBranch branch = store.registry.lookupBranch branch)
    (howns : ∀ other sipCallId, registry.Owns other sipCallId ↔ store.registry.Owns other sipCallId)
    (horiginated : ∀ other, registry.Originates other →
      store.registry.Originates other ∨ (store.calls.get? other).isSome) :
  Matches retired ⟨store.calls, registry⟩
  := by
  refine ⟨h.keyed, h.nodup, h.apart, ?_, ?_, ?_, ?_⟩
  · intro id branch hfound
    exact h.branch id branch (hlookup branch ▸ hfound)
  · intro id sipCallId howned
    exact h.callId id sipCallId ((howns id sipCallId).mp howned)
  · intro other horigin
    exact (horiginated other horigin).elim (h.originated other) id
  · intro id leg hmem htracking hretired
    obtain ⟨hfound, howned⟩ := h.resolves id leg hmem htracking hretired
    exact ⟨(hlookup _).trans hfound, (howns id _).mpr howned⟩

end CallStore

end Siphon.B2bua
