import Siphon.B2bua.RegistryRules

/-!
# The registry matches the calls

Every leg of a call is found by its Via branch and by its Call-ID, and nothing in the registry
names a call that is gone, as long as no two legs share a branch, no leg that is retired leaves its
Call-ID to another one, and no leg is dropped without its entries.
-/

namespace Siphon.B2bua

open List LegRegistry
open CallActor (legs names)

namespace CallStore

variable {store : CallStore} {retired : List Leg} {id : Text} {call : CallActor}

def referrer (call : CallActor) (referrerOnALeg : Bool) : Option Leg :=
  if referrerOnALeg then some call.aLeg else (call.winner.bind (call.bLegs[·]?)).map (·.leg)

/-- What an operation asks of the store for the registry to match the calls after it. -/
def Fits (store : CallStore) : StoreInput → Prop
  /- The fresh id is no call's, and no leg has the branch. -/
  | .createCall aLeg _ fresh => store.calls.get? fresh = none ∧ store.Fresh aLeg.branch
  | .addBLeg _ leg => store.Fresh leg.branch
  /- A retry has the Call-ID of the leg it supersedes. -/
  | .replaceBLeg id index leg => ∀ call old, store.calls.get? id = some call →
    call.bLegs[index]? = some old → leg.callId = old.leg.callId ∧
      old.leg.isTrackingLeg = false ∧ (leg.branch = old.leg.branch ∨ store.Fresh leg.branch)
  /- There is nothing to clear. -/
  | .clearBLegs id => ∀ call, store.calls.get? id = some call → call.bLegs = []
  /- A leg that only tracks a response goes on to do so. -/
  | .setBLegTargetUri id index targetUri => ∀ call bLeg, store.calls.get? id = some call →
    call.bLegs[index]? = some bLeg → bLeg.leg.isTrackingLeg = true →
    Leg.isTrackingLeg { bLeg.leg with targetUri := some targetUri } = true
  /- The new call has its caller only, the call that is taken over has two legs, and the dialog that
  is replaced shares its Call-ID with none of the others. -/
  | .adoptAndAnswer newId id replacedOnALeg => ∀ new, store.calls.get? newId = some new →
    new.bLegs = [] ∧ new.adoption = none ∧ ¬store.registry.Originates newId ∧ id ≠ newId ∧
    ∃ call won, store.calls.get? id = some call ∧ call.winner = some 0 ∧ call.bLegs = [won] ∧
      call.aLeg.callId ≠ won.leg.callId ∧
      new.aLeg.callId ≠ (if replacedOnALeg then call.aLeg else won.leg).callId
  /- The call that is merged has two legs, and is merged once. -/
  | .completeAdoption id _ => ∀ call adoption, store.calls.get? id = some call →
    call.adoption = some adoption → call.bLegs.length = 1 ∧ adoption.seated = false
  /- No other leg has the Call-ID of the referrer. -/
  | .promoteTransferTarget id _ referrerOnALeg => ∀ call leaver,
    store.calls.get? id = some call → referrer call referrerOnALeg = some leaver →
    ∀ leg ∈ call.legs, leg.branch ≠ leaver.branch → leg.isTrackingLeg = false →
      leg.callId ≠ leaver.callId
  | .markOriginated id _ => (store.calls.get? id).isSome
  | .registerOriginatedRefer _ refer => (store.calls.get? refer.callId).isSome
  | _ => True

/-! ### Calls whose legs stay -/

variable {index : ℕ}

theorem forall₂_modify {α : Type} {R : α → α → Prop} (hrefl : ∀ a, R a a) {l : List α} {f : α → α}
    (hf : ∀ a, l[index]? = some a → R a (f a)) :
  List.Forall₂ R l (l.modify index f)
  := by
  refine List.forall₂_iff_get.mpr ⟨by simp, fun place hplace _ => ?_⟩
  rw [get_eq_getElem, get_eq_getElem, getElem_modify]
  split
  · rename_i hsame
    exact hf _ (by rw [hsame]; exact List.getElem?_eq_getElem hplace)
  · exact hrefl _

theorem forall₂_mapIdx {α : Type} {R : α → α → Prop} {l : List α} {f : ℕ → α → α}
    (hf : ∀ index a, R a (f index a)) :
  List.Forall₂ R l (l.mapIdx f)
  := by
  refine List.forall₂_iff_get.mpr ⟨by simp, fun place hplace _ => ?_⟩
  rw [get_eq_getElem, get_eq_getElem, getElem_mapIdx]
  exact hf _ _

/-- The legs of two lists of callees, in their order, go on. -/
abbrev BLegsGoOn :=
  List.Forall₂ fun bLeg other : BLeg => bLeg.leg.GoesOn other.leg

theorem forall₂_legs {call' : CallActor} (haLeg : call'.aLeg = call.aLeg)
    (h : BLegsGoOn call.bLegs call'.bLegs) :
  List.Forall₂ Leg.GoesOn call.legs call'.legs
  := by
  refine .cons (haLeg ▸ .refl _) ?_
  rw [List.forall₂_map_left_iff, List.forall₂_map_right_iff]
  exact h

theorem bLegsGoOn_trans {first second third : List BLeg} (h : BLegsGoOn first second)
    (h' : BLegsGoOn second third) :
  BLegsGoOn first third
  := by
  induction h generalizing third with
  | nil => exact h'
  | cons hhead _ ih =>
  cases h' with
  | cons hhead' htail' => exact .cons (hhead.trans hhead') (ih htail')

theorem goesOn_cancel (bLeg : BLeg) :
  bLeg.leg.GoesOn bLeg.cancel.leg
  := by
  rw [BLeg.cancel]
  split
  · exact .refl _
  · exact ⟨rfl, rfl, rfl, fun h => h⟩

theorem goesOn_cancelPendingBranches (call : CallActor) (keep : Option ℕ) :
  BLegsGoOn call.bLegs (call.cancelPendingBranches keep).1.bLegs
  := by
  refine forall₂_mapIdx fun index bLeg => ?_
  split
  · exact goesOn_cancel bLeg
  · exact .refl _

section

variable (h : store.Matches retired)

include h

theorem Matches.tryWin (id : Text) (index : ℕ) :
  (store.tryWin id index).Matches retired
  := by
  rw [CallStore.tryWin]
  cases hget : store.calls.get? id with
  | none => exact h
  | some call =>
  have hkeyed := h.keyed id call hget
  simp only [CallActor.claimAnswer]
  split
  · exact h.goesOn hget hkeyed (forall₂_legs rfl (List.forall₂_same.mpr fun _ _ => .refl _)) rfl
  refine h.goesOn hget ⟨hkeyed.id, hkeyed.seated⟩ (forall₂_legs rfl ?_) rfl
  have hstatus : BLegsGoOn call.bLegs (call.setWinner index).bLegs :=
    forall₂_modify (fun _ => .refl _) fun _ _ => .refl _
  have hcancel := goesOn_cancelPendingBranches (call.setWinner index) (some index)
  exact bLegsGoOn_trans hstatus hcancel

theorem Matches.setBLegTargetUri {targetUri : Text}
    (hfits : store.Fits (.setBLegTargetUri id index targetUri)) :
  (store.setBLegTargetUri id index targetUri).Matches retired
  := by
  rw [CallStore.setBLegTargetUri]
  cases hget : store.calls.get? id with
  | none => exact h
  | some call =>
  have hkeyed := h.keyed id call hget
  refine h.goesOn hget ⟨hkeyed.id, hkeyed.seated⟩ (forall₂_legs rfl ?_) rfl
  exact forall₂_modify (fun _ => .refl _) fun bLeg hbLeg =>
    ⟨rfl, rfl, rfl, hfits call bLeg hget hbLeg⟩

theorem Matches.clearBLegs (hfits : store.Fits (.clearBLegs id)) :
  (store.clearBLegs id).Matches retired
  := by
  rw [CallStore.clearBLegs]
  cases hget : store.calls.get? id with
  | none => exact h
  | some call =>
  have hkeyed := h.keyed id call hget
  refine h.goesOn hget ⟨hkeyed.id, hkeyed.seated⟩ (forall₂_legs rfl ?_) rfl
  rw [hfits call hget]
  exact .nil

theorem Matches.beginAdoption {conferenceId ownerCallId : Text}
    {endsWithOwner claimed occupied : Bool} {after : CallStore × Text}
    (hbegin : store.beginAdoption id conferenceId ownerCallId endsWithOwner claimed occupied =
      .ok after) :
  after.1.Matches retired
  := by
  rw [CallStore.beginAdoption] at hbegin
  cases hget : store.calls.get? id with
  | none => simp [hget] at hbegin
  | some call =>
  rw [hget] at hbegin
  dsimp only at hbegin
  split at hbegin
  · cases hbegin
  split at hbegin
  · cases hbegin
  rename_i hfree
  cases hbegin
  have hnone : call.adoption = none := by
    cases hadoption : call.adoption with
    | none => rfl
    | some adoption => simp [hadoption] at hfree
  refine h.goesOn hget ⟨(h.keyed id call hget).id, ?_⟩ (forall₂_legs rfl ?_) ?_
  · rintro adoption hadoption halias
    cases hadoption
    exact absurd rfl halias
  · exact List.forall₂_same.mpr fun _ _ => .refl _
  · rw [hnone]
    rfl

theorem Matches.abandonAdoption (id : Text) :
  (store.abandonAdoption id).Matches retired
  := by
  rw [CallStore.abandonAdoption]
  cases hget : store.calls.get? id with
  | none => exact h
  | some call =>
  dsimp only
  split
  · rename_i hunseated
    obtain ⟨adoption, hadoption⟩ := Option.isSome_iff_exists.mp (Option.isSome_of_any hunseated)
    have hkeyed := h.keyed id call hget
    rw [hadoption, Option.any_some, Bool.not_eq_true'] at hunseated
    have halias := hkeyed.alias_eq_none hadoption hunseated
    refine h.goesOn hget ⟨hkeyed.id, (by simp)⟩ (forall₂_legs rfl ?_) ?_
    · exact List.forall₂_same.mpr fun _ _ => .refl _
    · rw [hadoption, Option.bind_some, halias]
      rfl
  · exact h

/-! ### Calls and legs that come -/

theorem Matches.createCallWithId {aLeg : Leg} {reserved : Option Text}
    {fresh : Text} (hid : store.calls.get? fresh = none) (hbranch : store.Fresh aLeg.branch) :
  (store.createCallWithId aLeg reserved fresh).1.Matches retired
  := by
  have hnone : store.calls.get?
      ((reserved.filter fun id => (store.calls.get? id).isNone).getD fresh) = none := by
    cases hreserved : reserved.filter fun id => (store.calls.get? id).isNone with
    | none => exact hid
    | some id => simpa using (Option.filter_eq_some_iff.mp hreserved).2
  rw [CallStore.createCallWithId]
  generalize (reserved.filter fun id => (store.calls.get? id).isNone).getD fresh = id at hnone ⊢
  -- No owner has ended, so none is forgotten.
  have howns : ∀ other sipCallId,
      ((store.put id { id, aLeg }).forgetEndedOwners aLeg.callId).registry.Owns other sipCallId ↔
        store.registry.Owns other sipCallId := by
    intro other sipCallId
    rw [owns_forgetEndedOwners]
    refine ⟨And.left, fun howns => ⟨howns, fun _ => ?_⟩⟩
    have hlive := h.live_of_owns howns
    simp only [CallStore.put, IndexMap.get?_insert]
    split
    · rfl
    · exact hlive
  have hunowned : ∀ sipCallId, ¬store.registry.Owns id sipCallId := by
    intro sipCallId howns
    have hlive := h.live_of_owns howns
    rw [hnone] at hlive
    cases hlive
  have hlegs : (store.legsOf id).Perm ([] ++ []) := by
    rw [legsOf, hnone]
    exact .nil
  have hlegs' : (legs { id, aLeg }).Perm ([aLeg] ++ []) := .refl _
  refine h.exchange ⟨rfl, (by simp)⟩ ?_ ?_ ?_ hlegs hlegs' (nodup_singleton _) ?_ ?_ ?_ ?_
  · intro other sipCallId hother
    simp [howns, hother]
  · intro sipCallId hown
    simp only [owns_registerBranch, owns_registerCallId, howns] at hown
    obtain ⟨-, hsame⟩ := hown.resolve_left (hunowned sipCallId)
    rw [hsame]
    exact mem_append_left _ mem_cons_self
  · intro other horigin
    simpa using horigin
  · intro leg hmem
    rw [mem_singleton.mp hmem]
    exact .inr hbranch
  · intro branch
    simp
  · simp
  · intro leg hmem _ _
    rw [mem_singleton.mp hmem]
    simp

end

theorem perm_addBLeg (call : CallActor) (leg : Leg) :
  (call.addBLeg leg).legs.Perm ([leg] ++ call.legs)
  := by
  rw [legs, CallActor.addBLeg, map_append, ← cons_append]
  exact perm_append_comm

theorem Matches.addBLeg (h : store.Matches retired) {leg : Leg} (hfresh : store.Fresh leg.branch) :
  (store.addBLeg id leg).Matches retired
  := by
  rw [CallStore.addBLeg]
  cases hget : store.calls.get? id with
  | none => exact h
  | some call =>
  have hkeyed := h.keyed id call hget
  have hlegs := perm_addBLeg call leg
  have hold : (store.legsOf id).Perm ([] ++ call.legs) := legsOf_of_get? hget ▸ .refl _
  refine h.exchange ⟨hkeyed.id, hkeyed.seated⟩ ?_ ?_ ?_ hold hlegs (nodup_singleton _) ?_ ?_ ?_ ?_
  · intro other sipCallId hother
    simp [hother]
  · intro sipCallId howns
    simp only [owns_registerCallId, owns_registerBranch] at howns
    rcases howns with howns | ⟨-, rfl⟩
    · have hname := namesOf_of_get? hget ▸ h.callId id sipCallId howns
      exact @mem_names_of_perm call _ _ [] _ _ (.refl _) hlegs rfl hname (by simp)
    · exact mem_names_of_leg (hlegs.mem_iff.mpr mem_cons_self)
  · intro other horigin
    simpa using horigin
  · intro other hmem
    rw [mem_singleton.mp hmem]
    exact .inr hfresh
  · intro branch
    simp
  · intro other _ _ howns
    simp [howns]
  · intro other hmem _ _
    rw [mem_singleton.mp hmem]
    simp

/-! ### Legs and calls that go -/

theorem Matches.replaceBLeg (h : store.Matches retired) {leg : Leg}
    (hfits : store.Fits (.replaceBLeg id index leg)) :
  (store.replaceBLeg id index leg).Matches retired
  := by
  rw [CallStore.replaceBLeg]
  cases hget : store.calls.get? id with
  | none => exact h
  | some call =>
  rw [Option.bind_some, CallActor.replaceBLeg]
  cases hold : call.bLegs[index]? with
  | none => exact h
  | some old =>
  obtain ⟨hcallId, htracking, hbranch⟩ := hfits call old hget hold
  obtain ⟨before, after, hsplit, rfl⟩ := Slice.exists_split_of_getElem? hold
  have hkeyed := h.keyed id call hget
  have hlegs : call.legs.Perm
      ([old.leg] ++ ((call.aLeg :: before.map (·.leg)) ++ after.map (·.leg))) := by
    rw [legs, hsplit, map_append, map_cons, ← cons_append]
    exact perm_middle
  have hlegs' : (legs { call with
      bLegs := call.bLegs.set before.length ⟨{ leg with id := old.leg.id }, .trying⟩ }).Perm
      ([{ leg with id := old.leg.id }] ++
        ((call.aLeg :: before.map (·.leg)) ++ after.map (·.leg))) := by
    simp only [legs, hsplit, set_append_right _ _ (Nat.le_refl _), Nat.sub_self,
      set_cons_zero, map_append, map_cons, ← cons_append]
    exact perm_middle
  have hframe := repointBranch_frame (store.put id { call with
    bLegs := call.bLegs.set before.length ⟨{ leg with id := old.leg.id }, .trying⟩ }) id
    old.leg.branch leg.branch
  refine h.exchange ⟨hkeyed.id, hkeyed.seated⟩ (fun other sipCallId _ => hframe.1 other sipCallId)
    ?_ (fun other => (hframe.2 other).mp) (legsOf_of_get? hget ▸ hlegs) hlegs' (nodup_singleton _)
    ?_ ?_ (fun other _ _ howns => (hframe.1 id other.callId).mpr howns) ?_
  · intro sipCallId howns
    have hname := namesOf_of_get? hget ▸ h.callId id _ ((hframe.1 id sipCallId).mp howns)
    by_cases hsame : sipCallId = old.leg.callId
    · rw [hsame, ← hcallId]
      exact @mem_names_of_leg _ { leg with id := old.leg.id }
        (hlegs'.mem_iff.mpr mem_cons_self)
    · exact mem_names_of_perm hlegs hlegs' rfl hname fun hmem =>
        hsame (mem_singleton.mp hmem)
  · intro other hmem
    rw [mem_singleton.mp hmem]
    exact hbranch.imp_left fun heq => mem_singleton.mpr heq
  · intro branch
    simp only [map_singleton, mem_singleton]
    exact lookupBranch_repointBranch _ id _ _ branch
  · intro other hmem _ hretired
    rw [mem_singleton.mp hmem] at hretired ⊢
    have hold : old.leg ∈ store.legsOf id := by
      rw [legsOf_of_get? hget, hlegs.mem_iff]
      exact mem_cons_self
    rw [hcallId]
    exact (hframe.1 id _).mpr (h.resolves id old.leg hold htracking hretired).2

theorem perm_legs_eraseIdx {bLeg : BLeg} (h : call.bLegs[index]? = some bLeg) :
  (call.bLegs.map (·.leg)).Perm (bLeg.leg :: (call.bLegs.eraseIdx index).map (·.leg))
  := by
  obtain ⟨before, after, hsplit, rfl⟩ := Slice.exists_split_of_getElem? h
  rw [hsplit, eraseIdx_append_of_length_le (Nat.le_refl _), Nat.sub_self, eraseIdx_cons_zero]
  simp

theorem Matches.removeBLeg (h : store.Matches retired) (id : Text) (index : ℕ) :
  (store.removeBLeg id index).Matches retired
  := by
  rw [CallStore.removeBLeg]
  cases hget : store.calls.get? id with
  | none => exact h
  | some call =>
  rw [Option.bind_some, CallActor.removeBLeg]
  cases hbLeg : call.bLegs[index]? with
  | none => exact h
  | some bLeg =>
  have hkeyed := h.keyed id call hget
  have hperm : call.legs.Perm (bLeg.leg :: legs { call with
      bLegs := call.bLegs.eraseIdx index, winner := call.winnerWithout index }) :=
    ((perm_legs_eraseIdx hbLeg).cons call.aLeg).trans (List.Perm.swap _ _ _)
  have hname : ∀ sipCallId, store.registry.Owns id sipCallId → sipCallId ≠ bLeg.leg.callId →
      sipCallId ∈ names { call with
        bLegs := call.bLegs.eraseIdx index, winner := call.winnerWithout index } := by
    intro sipCallId howns hother
    exact mem_names_of_drop hperm rfl (namesOf_of_get? hget ▸ h.callId id sipCallId howns) hother
  refine h.drop ⟨hkeyed.id, hkeyed.seated⟩ ?_ ?_ ?_ hget hperm ?_ ?_
  · intro other sipCallId hother
    rw [hkeyed.id]
    split <;> simp [hother]
  · intro sipCallId howns
    rw [hkeyed.id] at howns
    split at howns
    · rename_i hused
      by_cases hsame : sipCallId = bLeg.leg.callId
      · obtain ⟨leg, hleg, hcallId⟩ := any_eq_true.mp hused
        rw [hsame, ← of_decide_eq_true hcallId]
        exact mem_names_of_leg hleg
      · exact hname sipCallId howns hsame
    · obtain ⟨hold, hother⟩ := owns_removeCallId.mp howns
      exact hname sipCallId hold fun hsame => hother ⟨rfl, hsame⟩
  · intro other horigin
    split at horigin <;> simpa using horigin
  · intro branch
    split <;> simp
  · intro leg hleg _ howns
    split
    · exact howns
    · rename_i hunused
      refine owns_removeCallId.mpr ⟨howns, fun hsame => hunused ?_⟩
      exact any_eq_true.mpr ⟨leg, hleg, decide_eq_true hsame.2⟩

section

variable {targetIdx : ℕ} (h : store.Matches retired)
include h

theorem Matches.promoteOnALeg {target : BLeg} (hget : store.calls.get? id = some call)
    (htarget : call.bLegs[targetIdx]? = some target)
    (hfits : ∀ leg ∈ call.legs, leg.branch ≠ call.aLeg.branch → leg.isTrackingLeg = false →
      leg.callId ≠ call.aLeg.callId) :
  ((store.put id { call with
    aLeg := target.leg
    bLegs := call.bLegs.eraseIdx targetIdx
    winner := call.winnerWithout targetIdx }).retirePromotedReferrer call.id call.aLeg).Matches
    (retired ++ [call.aLeg])
  := by
  have hkeyed := h.keyed id call hget
  have hperm : call.legs.Perm (call.aLeg :: legs { call with
      aLeg := target.leg
      bLegs := call.bLegs.eraseIdx targetIdx
      winner := call.winnerWithout targetIdx }) :=
    (perm_legs_eraseIdx htarget).cons call.aLeg
  refine Matches.weaken ?_ (subset_append_left _ _)
  refine h.drop ⟨hkeyed.id, hkeyed.seated⟩ ?_ ?_ ?_ hget hperm ?_ ?_
  · intro other sipCallId hother
    simp [hkeyed.id, hother]
  · intro sipCallId howns
    simp only [hkeyed.id, owns_removeBranch, owns_removeCallId, put_registry, true_and] at howns
    have hname := namesOf_of_get? hget ▸ h.callId id sipCallId howns.1
    exact mem_names_of_drop hperm rfl hname howns.2
  · intro other horigin
    simpa using horigin
  · intro branch
    simp
  · intro leg hleg htracking howns
    have hmem : leg ∈ call.legs := hperm.mem_iff.mpr (mem_cons_of_mem _ hleg)
    have hnodup := h.nodup id
    rw [branchesOf_of_get? hget, (hperm.map (·.branch)).nodup_iff, map_cons, nodup_cons] at hnodup
    have hother : leg.branch ≠ call.aLeg.branch :=
      fun heq => hnodup.1 (heq ▸ mem_map_of_mem hleg)
    have hcallId := hfits leg hmem hother htracking
    simp [hkeyed.id, howns, hcallId]

/-- The callee is transferred away: it keeps its slot, and the target is the winner. -/
theorem Matches.promoteOnBLeg {won : BLeg} (hget : store.calls.get? id = some call)
    (hwon : call.winner.bind (call.bLegs[·]?) = some won)
    (hfits : ∀ leg ∈ call.legs, leg.branch ≠ won.leg.branch → leg.isTrackingLeg = false →
      leg.callId ≠ won.leg.callId) :
  ((store.put id { call with winner := some targetIdx }).retirePromotedReferrer call.id
    won.leg).Matches (retired ++ [won.leg])
  := by
  have hkeyed := h.keyed id call hget
  have hbranches := branchesOf_of_get? hget
  have hmem : won.leg ∈ call.legs := by
    obtain ⟨winner, -, hbLeg⟩ := Option.bind_eq_some_iff.mp hwon
    exact mem_cons_of_mem _ (mem_map_of_mem (mem_of_getElem? hbLeg))
  have hlegs : (some { call with winner := some targetIdx }).elim [] legs = call.legs := rfl
  refine h.change (subset_append_left _ _) (fun other => IndexMap.get?_insert _ id other _) hlegs
    (by rintro _ ⟨⟩; exact ⟨hkeyed.id, hkeyed.seated⟩) ?_ ?_ ?_ ?_ ?_ ?_ ?_ ?_
  · exact hbranches ▸ h.nodup id
  · intro leg hleg
    exact .inl (hbranches ▸ mem_map_of_mem hleg)
  · intro branch hold _
    have hother : branch ≠ won.leg.branch := by
      rintro rfl
      exact hold (hbranches ▸ mem_map_of_mem hmem)
    simp [hother]
  · intro branch other hold hfound
    rw [← hbranches, or_self] at hold
    rw [← hbranches]
    simp only [lookupBranch_removeBranch, lookupBranch_removeCallId, put_registry] at hfound
    split at hfound
    · cases hfound
    · exact ⟨h.eq_of_lookup hold hfound, hold⟩
  · intro other sipCallId hother
    simp [hkeyed.id, hother]
  · intro sipCallId howns
    simp only [hkeyed.id, owns_removeBranch, owns_removeCallId, put_registry] at howns
    have hname := h.callId id sipCallId howns.1
    rwa [namesOf_of_get? hget] at hname
  · intro other horigin
    exact ⟨by simpa using horigin, fun _ => rfl⟩
  · intro leg hleg htracking hretired
    rw [map_append, mem_append, not_or, map_singleton, mem_singleton] at hretired
    have hother : leg.branch ≠ won.leg.branch := by
      intro heq
      have hsame := inj_on_of_nodup_map (hbranches ▸ h.nodup id) hleg hmem heq
      exact hretired.2 (hsame ▸ rfl)
    obtain ⟨hfound, howns⟩ :=
      h.resolves id leg (legsOf_of_get? hget ▸ hleg) htracking hretired.1
    have hcallId := hfits leg hleg hother htracking
    simp [hkeyed.id, hother, hfound, howns, hcallId]

theorem Matches.promoteTransferTarget {referrerOnALeg : Bool} {after : CallStore × Leg}
    (hpromote : store.promoteTransferTarget id targetIdx referrerOnALeg = some after)
    (hfits : store.Fits (.promoteTransferTarget id targetIdx referrerOnALeg)) :
  after.1.Matches (retired ++ [after.2])
  := by
  rw [CallStore.promoteTransferTarget] at hpromote
  cases hget : store.calls.get? id with
  | none => simp [hget] at hpromote
  | some call =>
  simp only [hget] at hpromote
  cases htarget : call.bLegs[targetIdx]? with
  | none => simp [htarget] at hpromote
  | some target =>
  simp only [htarget] at hpromote
  cases referrerOnALeg with
  | true =>
    simp only [if_true, Option.some.injEq] at hpromote
    subst hpromote
    exact h.promoteOnALeg hget htarget (hfits call call.aLeg hget rfl)
  | false =>
    simp only [Bool.false_eq_true, if_false] at hpromote
    cases hwon : call.winner.bind (call.bLegs[·]?) with
    | none => simp [hwon] at hpromote
    | some won =>
    simp only [hwon, Option.some.injEq] at hpromote
    subst hpromote
    exact h.promoteOnBLeg hget hwon (hfits call won.leg hget (by simp [referrer, hwon]))

end

/-! ### A call of two legs -/

variable {replacedOnALeg : Bool} {won : BLeg}

/-- The party that is replaced and the one that stays. -/
theorem exists_parties (hbLegs : call.bLegs = [won]) (replacedOnALeg : Bool) :
  ∃ replaced stays, (if replacedOnALeg then (call.aLeg, won.leg) else (won.leg, call.aLeg)) =
      (replaced, stays) ∧ call.legs.Perm [replaced, stays]
  := by
  cases replacedOnALeg with
  | true => exact ⟨call.aLeg, won.leg, rfl, by simp [legs, hbLegs]⟩
  | false => exact ⟨won.leg, call.aLeg, rfl, by simpa [legs, hbLegs] using List.Perm.swap _ _ _⟩

theorem bLegs_eq_of_winner (hlength : call.bLegs.length = 1)
    (hwon : call.winner.bind (call.bLegs[·]?) = some won) :
  call.bLegs = [won]
  := by
  obtain ⟨only, honly⟩ := length_eq_one_iff.mp hlength
  obtain ⟨winner, -, hbLeg⟩ := Option.bind_eq_some_iff.mp hwon
  rw [honly] at hbLeg ⊢
  rw [mem_singleton.mp (mem_of_getElem? hbLeg)]

/-- A call that is merged keeps the Call-ID it was known by as a name. -/
theorem mem_names_seated {adoption : Adoption} {replaced stays : Leg} {sipCallId : Text}
    (hpair : (if replacedOnALeg then (call.aLeg, won.leg) else (won.leg, call.aLeg)) =
      (replaced, stays))
    (hname : sipCallId = replaced.callId ∧ replacedOnALeg = true ∨ sipCallId = stays.callId) :
  sipCallId ∈ names { call with
    aLeg := stays
    bLegs := []
    winner := none
    adoption := some (seatedAdoption adoption replacedOnALeg call.aLeg.callId stays.callId) }
  := by
  rcases hname with ⟨rfl, rfl⟩ | rfl
  · cases hpair
    by_cases hsame : call.aLeg.callId = won.leg.callId
    · simp [names, legs, hsame]
    · simp [names, legs, seatedAdoption, hsame]
  · simp [names, legs]

theorem Matches.completeAdoption (h : store.Matches retired) {after : CallStore × Leg}
    (hcomplete : store.completeAdoption id replacedOnALeg = some after)
    (hfits : store.Fits (.completeAdoption id replacedOnALeg)) :
  after.1.Matches retired
  := by
  rw [CallStore.completeAdoption] at hcomplete
  cases hget : store.calls.get? id with
  | none => simp [hget] at hcomplete
  | some call =>
  simp only [hget] at hcomplete
  cases hwon : call.winner.bind (call.bLegs[·]?) with
  | none => simp [hwon] at hcomplete
  | some won =>
  cases hadoption : call.adoption with
  | none => simp [hwon, hadoption] at hcomplete
  | some adoption =>
  have hkeyed := h.keyed id call hget
  obtain ⟨hlength, hunseated⟩ := hfits call adoption hget hadoption
  have halias := hkeyed.alias_eq_none hadoption hunseated
  obtain ⟨replaced, stays, hpair, hperm⟩ :=
    exists_parties (bLegs_eq_of_winner hlength hwon) replacedOnALeg
  simp only [hwon, hadoption, hpair, Option.some.injEq] at hcomplete
  subst hcomplete
  have howned : ∀ sipCallId, store.registry.Owns id sipCallId →
      sipCallId = replaced.callId ∨ sipCallId = stays.callId := by
    intro sipCallId howns
    have hname := namesOf_of_get? hget ▸ h.callId id sipCallId howns
    simpa [names, (hperm.map (·.callId)).mem_iff, hadoption, halias] using hname
  refine h.drop ⟨hkeyed.id, by rintro _ ⟨⟩ _; rfl⟩ ?_ ?_ ?_ hget hperm ?_ ?_
  · intro other sipCallId hother
    split <;> simp [hother]
  · intro sipCallId howns
    refine mem_names_seated hpair ?_
    split at howns
    · simp only [owns_removeBranch, owns_registerCallId, owns_removeCallId, true_and] at howns
      exact .inr ((howns.1.elim (howned sipCallId) .inr).resolve_left howns.2)
    · rename_i hkept
      simp only [owns_removeBranch, owns_registerCallId, true_and] at howns
      rcases howns.elim (howned sipCallId) .inr with rfl | hstays
      · cases replacedOnALeg with
        | true => exact .inl ⟨rfl, rfl⟩
        | false => exact .inr (by simpa using hkept)
      · exact .inr hstays
  · intro other horigin
    split at horigin <;> simpa using horigin
  · intro branch
    split <;> simp
  · intro leg hleg _ howns
    rw [mem_singleton.mp hleg] at howns ⊢
    split
    · rename_i hother
      have hcallId : stays.callId ≠ replaced.callId := by
        rintro heq
        simp [heq] at hother
      simp [howns, hcallId]
    · simp [howns]

theorem Matches.removeCall (h : store.Matches retired) (id : Text) :
  (store.removeCall id).Matches retired
  := by
  rw [CallStore.removeCall]
  cases hget : store.calls.get? id with
  | none => exact h
  | some call =>
  set cleared := ((adoptionEnded store.registry id call).clearOriginatedRefers id
    ).clearOriginatedCalls id
  obtain ⟨hlookup, howns, horigin⟩ := @foldl_retireLeg id cleared call.legs
  apply h.gone
  · intro branch
    rw [hlookup, branchesOf_of_get? hget]
    split
    · rfl
    · exact adoptionEnded_frame.1 branch
  · intro other sipCallId
    have hended : cleared.Owns other sipCallId ↔ _ := owns_adoptionEnded
    rw [howns, hended]
    constructor
    · rintro ⟨⟨hown, halias⟩, hleg⟩
      refine ⟨?_, hown⟩
      rintro rfl
      have hname := namesOf_of_get? hget ▸ h.callId other sipCallId hown
      rcases mem_append.mp hname with hmem | hmem
      · exact hleg ⟨rfl, hmem⟩
      · exact halias ⟨rfl, hmem⟩
    · rintro ⟨hother, hown⟩
      exact ⟨⟨hown, fun hsame => hother hsame.1⟩, fun hsame => hother hsame.1⟩
  · intro other horiginates
    obtain ⟨hended, hother⟩ := originates_clear ((horigin other).mp horiginates)
    exact ⟨hother, (adoptionEnded_frame.2 other).mp hended⟩

/-! ### Taking over a dialog -/

theorem Matches.detach (h : store.Matches retired) (hget : store.calls.get? id = some call)
    (hbLegs : call.bLegs = []) (hadoption : call.adoption = none)
    (horiginated : ¬store.registry.Originates id) :
  Matches retired (forgetEndedOwners
    ⟨store.calls.shiftRemove id, store.registry.removeBranch call.aLeg.branch⟩ call.aLeg.callId)
  := by
  have hbranches : store.branchesOf id = [call.aLeg.branch] := by
    rw [branchesOf_of_get? hget, legs, hbLegs]
    rfl
  change Matches retired ⟨store.calls.shiftRemove id,
    (forgetEndedOwners ⟨store.calls.shiftRemove id,
      store.registry.removeBranch call.aLeg.branch⟩ call.aLeg.callId).registry⟩
  apply h.gone
  · intro branch
    simp [hbranches]
  · intro other sipCallId
    rw [owns_forgetEndedOwners, owns_removeBranch, IndexMap.get?_shiftRemove, and_comm]
    refine and_congr_left fun howns => ?_
    constructor
    · rintro hlive rfl
      have hname := namesOf_of_get? hget ▸ h.callId other sipCallId howns
      have hsame : sipCallId = call.aLeg.callId := by
        simpa [names, legs, hbLegs, hadoption] using hname
      simpa using hlive hsame
    · intro hother _
      rw [if_neg hother]
      exact h.live_of_owns howns
  · intro other horigin
    have hold : store.registry.Originates other := by simpa using horigin
    exact ⟨fun hsame => horiginated (hsame ▸ hold), hold⟩

/-- The new party takes its place on the call once its own is taken apart. -/
theorem Matches.adopt {newLeg : Leg} {after : CallStore × Leg × Leg}
    (h : (store.forgetEndedOwners newLeg.callId).Matches retired)
    (hget : store.calls.get? id = some call) (hwinner : call.winner = some 0)
    (hwon : call.bLegs = [won]) (hapart : call.aLeg.callId ≠ won.leg.callId)
    (hcallId : newLeg.callId ≠ (if replacedOnALeg then call.aLeg else won.leg).callId)
    (hfresh : (store.forgetEndedOwners newLeg.callId).Fresh newLeg.branch)
    (hadopt : store.adoptReplacedDialog id replacedOnALeg newLeg = some after) :
  after.1.Matches retired
  := by
  have hbind : call.winner.bind (call.bLegs[·]?) = some won := by simp [hwinner, hwon]
  obtain ⟨replaced, survivor, hpair, hperm⟩ := exists_parties hwon replacedOnALeg
  have hreplaced : (if replacedOnALeg then call.aLeg else won.leg) = replaced ∧
      survivor.callId ≠ replaced.callId := by
    cases replacedOnALeg with
    | true =>
      cases hpair
      exact ⟨rfl, hapart.symm⟩
    | false =>
      cases hpair
      exact ⟨rfl, hapart⟩
  obtain ⟨hreplaced, hdiffer⟩ := hreplaced
  rw [hreplaced] at hcallId
  simp only [adoptReplacedDialog, hget, hbind, hpair, Option.some.injEq] at hadopt
  subst hadopt
  have hgetbase : (store.forgetEndedOwners newLeg.callId).calls.get? id = some call := hget
  have hkeyed := h.keyed id call hgetbase
  -- The call that is adopted into is in the store either way.
  have hforget : ∀ call' other sipCallId,
      ((store.put id call').forgetEndedOwners newLeg.callId).registry.Owns other sipCallId ↔
        (store.forgetEndedOwners newLeg.callId).registry.Owns other sipCallId := by
    intro call' other sipCallId
    rw [owns_forgetEndedOwners, owns_forgetEndedOwners]
    refine and_congr_right fun _ => imp_congr_right fun _ => ?_
    simp only [CallStore.put, IndexMap.get?_insert]
    split
    · rename_i hsame
      rw [hsame, hget]
      exact Iff.rfl
    · rfl
  have hother : replaced.branch ≠ newLeg.branch := by
    intro heq
    refine hfresh id (heq ▸ ?_)
    rw [branchesOf_of_get? hgetbase, (hperm.map (·.branch)).mem_iff]
    exact mem_cons_self
  have hold : (legsOf (store.forgetEndedOwners newLeg.callId) id).Perm ([replaced] ++ [survivor]) :=
    legsOf_of_get? hgetbase ▸ hperm
  refine h.exchange ⟨hkeyed.id, hkeyed.seated⟩ ?_ ?_ ?_ hold (.refl ([newLeg] ++ [survivor]))
    (nodup_singleton _) ?_ ?_ ?_ ?_
  · intro otherId sipCallId hne
    simp [hforget, hne]
  · intro sipCallId howns
    simp only [owns_removeBranch, owns_removeCallId,
      owns_registerBranch, owns_registerCallId, hforget, true_and] at howns
    obtain ⟨hold | rfl, hne⟩ := howns
    · have hname := namesOf_of_get? hgetbase ▸ h.callId id sipCallId hold
      exact @mem_names_of_perm call _ _ [_] [newLeg] _ hperm (.refl _) rfl hname fun hmem =>
        hne (mem_singleton.mp hmem)
    · exact mem_names_of_leg (mem_cons_self)
  · intro otherId horigin
    simpa using horigin
  · intro leg hmem
    rw [mem_singleton.mp hmem]
    exact .inr hfresh
  · intro branch
    simp only [map_singleton, mem_singleton, lookupBranch_removeBranch, lookupBranch_removeCallId,
      lookupBranch_registerBranch, lookupBranch_registerCallId, lookupBranch_forgetEndedOwners,
      put_registry]
    by_cases hnew : branch = newLeg.branch
    · rw [if_neg (hnew ▸ hother.symm), if_pos hnew, if_pos hnew]
    · rw [if_neg hnew, if_neg hnew]
  · intro leg hleg _ howns
    rw [mem_singleton.mp hleg] at howns ⊢
    simp only [owns_removeBranch, owns_removeCallId,
      owns_registerBranch, owns_registerCallId, hforget]
    exact ⟨.inl howns, fun hsame => hdiffer hsame.2⟩
  · intro leg hleg _ _
    rw [mem_singleton.mp hleg]
    simp [hcallId]

theorem Matches.adoptAndAnswer (h : store.Matches retired) {newId : Text}
    (hfits : store.Fits (.adoptAndAnswer newId id replacedOnALeg)) :
  (store.adoptAndAnswer newId id replacedOnALeg).Matches retired
  := by
  rw [CallStore.adoptAndAnswer, detachALegForAdoption]
  cases hnew : store.calls.get? newId with
  | none => exact h
  | some new =>
  obtain ⟨hbLegs, hadoption, horiginated, hother, call, won, hget, hwinner, hwon, hapart,
    hcallId⟩ := hfits new hnew
  have hbase := h.detach hnew hbLegs hadoption horiginated
  have hgetbase : (store.calls.shiftRemove newId).get? id = some call := by
    rw [IndexMap.get?_shiftRemove, if_neg hother, hget]
  -- The new party's branch was its own call's, and that is gone.
  have hfresh : Fresh (forgetEndedOwners ⟨store.calls.shiftRemove newId,
      store.registry.removeBranch new.aLeg.branch⟩ new.aLeg.callId) new.aLeg.branch := by
    intro holder hmem
    have hmine : new.aLeg.branch ∈ store.branchesOf newId := by
      rw [branchesOf_of_get? hnew]
      exact mem_cons_self
    by_cases hholder : holder = newId
    · subst hholder
      rw [branchesOf_of_none (by simp [forgetEndedOwners, IndexMap.get?_shiftRemove])] at hmem
      cases hmem
    · refine hholder (h.apart _ _ _ ?_ hmine)
      rw [branchesOf, legsOf] at hmem ⊢
      simpa [forgetEndedOwners, IndexMap.get?_shiftRemove, hholder] using hmem
  have hbind : call.winner.bind (call.bLegs[·]?) = some won := by simp [hwinner, hwon]
  dsimp only
  cases hadopt : adoptReplacedDialog
      ⟨store.calls.shiftRemove newId, store.registry.removeBranch new.aLeg.branch⟩ id
      replacedOnALeg new.aLeg with
  | none => simp [adoptReplacedDialog, hgetbase, hbind] at hadopt
  | some after => exact hbase.adopt hgetbase hwinner hwon hapart hcallId hfresh hadopt

/-! ### Runs -/

/-- An input that fits keeps the registry matched. -/
theorem Matches.step (h : store.Matches retired) {input : StoreInput} (hfits : store.Fits input) :
  (storeMachine.step store input).1.Matches (retired ++ (storeMachine.step store input).2)
  := by
  cases input with
  | createCall aLeg reserved fresh =>
    simpa [storeMachine] using h.createCallWithId hfits.1 hfits.2
  | addBLeg id leg => simpa [storeMachine] using h.addBLeg hfits
  | replaceBLeg id index leg => simpa [storeMachine] using h.replaceBLeg hfits
  | removeBLeg id index => simpa [storeMachine] using h.removeBLeg id index
  | clearBLegs id => simpa [storeMachine] using h.clearBLegs hfits
  | setBLegTargetUri id index targetUri =>
    simpa [storeMachine] using h.setBLegTargetUri hfits
  | tryWin id index => simpa [storeMachine] using h.tryWin id index
  | adoptAndAnswer newId id replacedOnALeg => simpa [storeMachine] using h.adoptAndAnswer hfits
  | beginAdoption id conferenceId ownerCallId endsWithOwner claimed occupied =>
    simp only [storeMachine]
    split
    · simpa using h
    · rename_i hbegin
      simpa using h.beginAdoption hbegin
  | abandonAdoption id => simpa [storeMachine] using h.abandonAdoption id
  | completeAdoption id replacedOnALeg =>
    simp only [storeMachine]
    split
    · simpa using h
    · rename_i hcomplete
      simpa using h.completeAdoption hcomplete hfits
  | promoteTransferTarget id targetIdx referrerOnALeg =>
    simp only [storeMachine]
    split
    · simpa using h
    · rename_i hpromote
      exact h.promoteTransferTarget hpromote hfits
  | removeCall id => simpa [storeMachine] using h.removeCall id
  | markOriginated id branch =>
    rw [storeMachine, append_nil]
    exact h.originate (fun _ => rfl) (fun _ _ => Iff.rfl) fun other horigin =>
      (originates_registerOriginatedCall horigin).imp_right (by rintro rfl; exact hfits)
  | registerOriginatedRefer branch refer =>
    rw [storeMachine, append_nil]
    exact h.originate (fun _ => rfl) (fun _ _ => Iff.rfl) fun other horigin =>
      (originates_registerOriginatedRefer horigin).imp_right (by rintro rfl; exact hfits)
  | takeOriginatedRefer branch =>
    rw [storeMachine, append_nil]
    exact h.originate (fun _ => rfl) (fun _ _ => Iff.rfl) fun other horigin =>
      .inl (originates_takeOriginatedRefer horigin)

theorem matches_empty :
  Matches [] {}
  := by
  have hnone : ∀ id, (CallStore.calls {}).get? id = none := fun _ => rfl
  refine ⟨?_, ?_, ?_, ?_, ?_, ?_, ?_⟩
  · intro id call hget
    cases (hnone id).symm.trans hget
  · intro id
    exact nodup_nil
  · intro id other branch hmem
    cases hmem
  · intro id branch hfound
    simp [LegRegistry.lookupBranch] at hfound
  · rintro id sipCallId ⟨owner, hmem, -⟩
    simp [IndexMap.members] at hmem
  · rintro id (⟨branch, hbranch⟩ | ⟨branch, hbranch⟩)
    · simp at hbranch
    · simp at hbranch
  · intro id leg hmem
    cases hmem

end CallStore

/-- In every run whose operations fit, each leg of a call that is no tracking leg and was not
retired by a transfer is found by its branch and its Call-ID, and nothing names a call that is not
in the store. -/
theorem registry_matches_calls (inputs : List StoreInput) :
  let run := storeMachine.run {}
  let retired := storeMachine.outputs {} inputs
  let fits := ∀ before input, before ++ [input] <+: inputs → (run before).Fits input
  (fits → ∀ id call, (run inputs).calls.get? id = some call → ∀ leg ∈ call.legs,
    leg.isTrackingLeg = false → leg.id ∉ retired.map (·.id) →
    (run inputs).registry.lookupBranch leg.branch = some id ∧
    id ∈ (run inputs).registry.lookupCallIds leg.callId ∧
    ((∀ other, other ≠ id → leg.callId ∉ (run inputs).namesOf other) →
      (run inputs).registry.lookupCallId leg.callId = some id)) ∧
  (fits → ∀ id, (run inputs).calls.get? id = none → ¬(run inputs).registry.Names id)
  := by
  intro run retired fits
  have hmatches : fits → (run inputs).Matches retired := fun hfits =>
    @Machine.logged_of_allowed _ _ _ storeMachine CallStore.Matches CallStore.Fits
      (fun _ _ _ hinput h => h.step hinput) _ CallStore.matches_empty inputs hfits
  constructor
  · intro hfits id call hget leg hleg htracking hretired
    have h := hmatches hfits
    obtain ⟨hlookup, howns⟩ :=
      h.resolves id leg (CallStore.legsOf_of_get? hget ▸ hleg) htracking hretired
    refine ⟨hlookup, mem_lookupCallIds.mpr howns, fun honly => ?_⟩
    refine lookupCallId_eq_some howns fun other hother => ?_
    by_contra hne
    exact honly other hne (h.callId other _ hother)
  · rintro hfits id hget (⟨branch, hlookup⟩ | ⟨sipCallId, hmem⟩ | horigin)
    · have hbranch := (hmatches hfits).branch id branch hlookup
      rw [CallStore.branchesOf_of_none hget] at hbranch
      cases hbranch
    · have hlive := (hmatches hfits).live_of_owns (mem_lookupCallIds.mp hmem)
      rw [hget] at hlive
      cases hlive
    · have hlive := (hmatches hfits).originated id horigin
      rw [hget] at hlive
      cases hlive

/-- Both legs of a call carry the caller's Call-ID, and the callee is transferred away. -/
def transferWithOneCallId : List StoreInput :=
  let leg (side : LegSide) (branch callId : Text) : Leg := { id := branch, side, branch, callId }
  [.createCall (leg .a "a".toList "dialog".toList) none "call".toList,
    .addBLeg "call".toList (leg .b "b".toList "dialog".toList), .tryWin "call".toList 0,
    .addBLeg "call".toList (leg .b "target".toList "other".toList),
    .promoteTransferTarget "call".toList 1 false]

/-- A branch that is dialled fails, the legs are cleared for another dial, and the call ends. -/
def clearedThenRemoved : List StoreInput :=
  let leg (side : LegSide) (branch callId : Text) : Leg := { id := branch, side, branch, callId }
  [.createCall (leg .a "a".toList "dialog".toList) none "call".toList,
    .addBLeg "call".toList (leg .b "b".toList "dialled".toList), .clearBLegs "call".toList,
    .removeCall "call".toList]

/-- Retiring the callee unregisters the Call-ID that the caller still uses; and the entries of the
legs that were cleared go on naming the call that is gone. -/
theorem transferWithOneCallId_unregisters_caller :
  let transferred := storeMachine.run {} transferWithOneCallId
  let cleared := storeMachine.run {} clearedThenRemoved
  ((transferred.calls.get? "call".toList).any fun call =>
      call.aLeg.callId = "dialog".toList && !call.aLeg.isTrackingLeg) ∧
    transferred.registry.lookupCallIds "dialog".toList = [] ∧
    cleared.calls.get? "call".toList = none ∧
    cleared.registry.lookupBranch "b".toList = some "call".toList ∧
    cleared.registry.lookupCallIds "dialled".toList = ["call".toList]
  := by
  decide +kernel

end Siphon.B2bua
