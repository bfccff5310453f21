import Siphon.B2bua.Cancelled

/-!
# What the calls on the kept branches do

The accesses of a call, one move for each thing an access can do, and what each move does to the
count, to the entries that are held, to the CANCELs that wait and to the provisionals on record.
-/

namespace Siphon.B2bua

open List CancelPhase IndexMap

open CancelStore

/-! ### What an access does -/

namespace CancelPhase

/-- Whether a call has entered a branch and not counted it yet. -/
def raises : CancelPhase → Bool
  | .raise _ => true
  | _ => false

/-- What a call has still to do to the count. -/
def debt : CancelPhase → ℤ
  | .raise _ => 1
  | .lower _ => -1
  | _ => 0

variable (branch : Text)

/-- Whether a call holds the entry of a branch to find out if the branch had a provisional. -/
def claims : CancelPhase → Bool
  | .claimReadLeg held => held = branch
  | .claimReadOriginated held => held = branch
  | _ => false

def holds : CancelPhase → Bool
  | .lower held => held = some branch
  | phase => phase.claims branch

/-- Whether a call has missed a branch among the legs and reads it among the INVITEs siphon
placed. -/
def readsOriginated : CancelPhase → Bool
  | .keepReadOriginated read => read = branch
  | .claimReadOriginated read => read = branch
  | _ => false

/-- Whether a call reads the count next. -/
def loads : CancelPhase → Bool
  | .load _ => true
  | .timerLoad _ => true
  | _ => false

def brings : CancelPhase → Bool
  | .noteOriginated noted => noted = branch
  | .load noted => noted = branch
  | .take noted => noted = branch
  | _ => false

/-- Whether a call ends without an effect if there is nothing for it. -/
def mayLeave : CancelPhase → Bool
  | .keep _ _ => true
  | .keepReadLeg _ => true
  | .keepReadOriginated _ => true
  | .claim _ => true
  | .expire _ _ => true
  | _ => false

def settles : CancelPhase → Bool
  | .claim settled => settled = branch
  | .take settled => settled = branch
  | .success settled => settled = branch
  | .failure settled => settled = branch
  | .timerSettle settled => settled = branch
  | _ => false

end CancelPhase

open CancelPhase

variable {branch : Text} {event : CancelEvent}

namespace CancelEvent

/-- Whether an event is that no CANCEL is owed to a branch any longer, Timer B apart. -/
def settles (branch : Text) : CancelEvent → Bool
  | .released settled _ => settled = branch
  | .success settled _ => settled = branch
  | .failure settled _ => settled = branch
  | .expired settled => settled = branch
  | _ => false

def isOver (branch : Text) : CancelEvent → Bool
  | .success ended _ => ended = branch
  | .failure ended _ => ended = branch
  | .timedOut ended => ended = branch
  | _ => false

theorem settles_or_eq_of_isOver (h : event.isOver branch) :
  event.settles branch ∨ event = .timedOut branch
  := by
  cases event <;> simp_all [isOver, settles]

end CancelEvent

/-- A call that holds the entry of a branch reads in the registry whether the branch had a
provisional. -/
def CancelStore.Reads (store : CancelStore) (branch : Text) (provisional : Bool)
    (phase : CancelPhase) : Prop :=
  (phase = .claimReadLeg branch ∧
    (store.registry.byBranch.get? branch).map (·.provisional) = some provisional) ∨
  (phase = .claimReadOriginated branch ∧
    (store.registry.originatedCalls.get? branch).any (·.provisional) = provisional)

/-- The branch a call reads among the INVITEs siphon placed is none of a leg. -/
def CancelStore.Missed (store : CancelStore) (phase : CancelPhase) : Prop :=
  ∀ branch, phase.readsOriginated branch → store.registry.byBranch.get? branch = none

/-- What an access of a call does. -/
inductive Move (store : CancelStore) :
    CancelPhase → CancelStore → CancelPhase → List CancelEvent → Prop where
  | wait (phase : CancelPhase) : Move store phase store phase []
  | leave {phase : CancelPhase} (h : phase.mayLeave) : Move store phase store .done []
  | keep {leg : Leg} {entry : ZombieCancelledLeg} (invite : StashedInvite)
      (hawaits : entry.awaitingProvisional) (hsilent : entry.provisionalReceived = false)
      (hnone : store.kept? leg.branch = none) :
    Move store (.keep leg invite)
      { store with zombieCancelled := store.zombieCancelled.insert leg.branch entry }
      (.raise leg.branch) [.kept leg.branch]
  | raise (branch : Text) :
    Move store (.raise branch) { store with deferredCancels := store.deferredCancels + 1 }
      (.keepReadLeg branch) []
  | keepOriginated {branch : Text} (hnone : store.registry.byBranch.get? branch = none) :
    Move store (.keepReadLeg branch) store (.keepReadOriginated branch) []
  | seenLeg {branch : Text} {entry : BranchEntry}
      (hentry : store.registry.byBranch.get? branch = some entry) (h : entry.provisional) :
    Move store (.keepReadLeg branch) store (.mark branch) []
  | seenOriginated {branch : Text}
      (h : (store.registry.originatedCalls.get? branch).any (·.provisional)) :
    Move store (.keepReadOriginated branch) store (.mark branch) []
  | mark (branch : Text) :
    Move store (.mark branch) (store.modify branch ({ · with provisionalReceived := true }))
      .done []
  | hold {branch : Text} (hfree : branch ∉ store.held) (hawaits : store.awaits branch) :
    Move store (.claim branch) (store.hold branch) (.claimReadLeg branch) []
  | claimOriginated {branch : Text} (hnone : store.registry.byBranch.get? branch = none) :
    Move store (.claimReadLeg branch) store (.claimReadOriginated branch) []
  | refuse {phase : CancelPhase} {branch : Text} (h : store.Reads branch false phase) :
    Move store phase (store.letGo branch) .done [.refused branch]
  | grant {phase : CancelPhase} {branch : Text} (h : store.Reads branch true phase) :
    Move store phase (store.settle branch) (.lower (some branch)) [.released branch none]
  | noteLeg {branch : Text} {entry : BranchEntry}
      (hentry : store.registry.byBranch.get? branch = some entry) :
    Move store (.noteLeg branch) { store with registry := store.registry.noteLeg branch }
      (.load branch) [.provisional branch]
  | missLeg {branch : Text} (hnone : store.registry.byBranch.get? branch = none) :
    Move store (.noteLeg branch) store (.noteOriginated branch) [.provisional branch]
  | noteOriginated (branch : Text) :
    Move store (.noteOriginated branch)
      { store with registry := store.registry.noteOriginated branch } (.load branch) []
  | load (branch : Text) : Move store (.load branch) store (.take branch) []
  | loadZero {branch : Text} (h : store.deferredCancels = 0) :
    Move store (.load branch) store .done []
  | takeNone {branch : Text} (hawaits : store.awaits branch = false) :
    Move store (.take branch) store .done []
  | timerLoad (branch : Text) : Move store (.timerLoad branch) store (.timerSettle branch) []
  | timerZero {branch : Text} (h : store.deferredCancels = 0) :
    Move store (.timerLoad branch) store .done [.timedOut branch]
  | settle {phase : CancelPhase} {branch : Text} {event : CancelEvent}
      {f : ZombieCancelledLeg → ZombieCancelledLeg} (hphase : phase.settles branch)
      (hevent : event.settles branch ∨ event = .timedOut branch)
      (hreleased : ∀ leg, event = .released branch leg →
        phase = .take branch ∨ (store.kept? branch).any (·.provisionalReceived))
      (hfree : branch ∉ store.held) (hawaits : store.awaits branch)
      (hf : ∀ entry, (f entry).awaitingProvisional = false ∧
        (f entry).provisionalReceived = entry.provisionalReceived) :
    Move store phase ((store.modify branch f).hold branch) (.lower (some branch)) [event]
  | answer {phase : CancelPhase} {branch : Text} {event : CancelEvent}
      {f : ZombieCancelledLeg → ZombieCancelledLeg} (hphase : phase.settles branch)
      (hevent : event.isOver branch) (hawaits : store.awaits branch = false)
      (hf : ∀ entry, (f entry).awaitingProvisional = entry.awaitingProvisional ∧
        (f entry).provisionalReceived = entry.provisionalReceived) :
    Move store phase (store.modify branch f) .done [event]
  | expire {branch : Text} {due : ℕ} {entry : ZombieCancelledLeg} (hfree : branch ∉ store.held)
      (hentry : store.kept? branch = some entry) :
    Move store (.expire branch due)
      { store with zombieCancelled := store.zombieCancelled.shiftRemove branch }
      (if entry.awaitingProvisional then .lower none else .done) [.expired branch]
  | lower (held : Option Text) :
    Move store (.lower held)
      { store with
        deferredCancels := store.deferredCancels - 1
        held := held.elim store.held store.held.erase }
      .done []

variable {store : CancelStore} {entry : ZombieCancelledLeg}

/-- What is left after an access, with the phase of its call and what it puts out, is by a move. -/
abbrev CancelStore.Moves (store : CancelStore) (phase : CancelPhase)
    (after : CancelStore × CancelPhase × List CancelEvent) : Prop :=
  Move store phase after.1 after.2.1 after.2.2

theorem awaits_eq_of_kept? (h : store.kept? branch = some entry) :
  store.awaits branch = entry.awaitingProvisional
  := by
  rw [awaits, h]
  rfl

variable {phase : CancelPhase}

theorem move_withEntry
    {found : Option ZombieCancelledLeg → CancelStore × CancelPhase × List CancelEvent}
    (h : branch ∉ store.held → store.Moves phase (found (store.kept? branch))) :
  store.Moves phase (store.withEntry branch phase found)
  := by
  rw [withEntry]
  split
  · exact .wait phase
  · rename_i hheld
    exact h hheld

theorem modify_id (store : CancelStore) (branch : Text) :
  store.modify branch id = store
  := by
  simp [CancelStore.modify, IndexMap.modify]

theorem modify_modify (store : CancelStore) (branch : Text)
    (f g : ZombieCancelledLeg → ZombieCancelledLeg) :
  (store.modify branch f).modify branch g = store.modify branch (g ∘ f)
  := by
  simp only [CancelStore.modify, IndexMap.modify, map_map]
  congr 2
  apply map_congr_left
  intro e _
  by_cases he : e.1 = branch <;> simp [he]

variable {provisional : Bool}

theorem move_decideClaim (h : store.Reads branch provisional phase) :
  store.Moves phase (store.decideClaim branch provisional)
  := by
  cases provisional with
  | false => exact .refuse h
  | true => exact .grant h

theorem move_settleOwedCancel {f : ZombieCancelledLeg → ZombieCancelledLeg}
    (hphase : phase.settles branch) (hevent : event.isOver branch) (hfree : branch ∉ store.held)
    (hentry : store.kept? branch = some entry)
    (hf : ∀ entry, (f entry).awaitingProvisional = entry.awaitingProvisional ∧
      (f entry).provisionalReceived = entry.provisionalReceived) :
  store.Moves phase ((store.modify branch f).settleOwedCancel branch entry event)
  := by
  have hawaits := awaits_eq_of_kept? hentry
  rw [settleOwedCancel]
  split
  · rename_i hwaits
    rw [settle, modify_modify]
    refine .settle hphase (CancelEvent.settles_or_eq_of_isOver hevent) ?_ hfree
      (hawaits.trans hwaits) (fun entry => ⟨rfl, (hf entry).2⟩)
    rintro leg rfl
    cases hevent
  · rename_i hwaits
    exact .answer hphase hevent (hawaits.trans (by simpa using hwaits)) hf

theorem move_answer_none (hphase : phase.settles branch) (hevent : event.isOver branch)
    (hentry : store.kept? branch = none) :
  Move store phase store .done [event]
  := by
  have hawaits : store.awaits branch = false := by
    rw [awaits, hentry]
    rfl
  have hmove := Move.answer hphase hevent hawaits (f := id) (fun _ => ⟨rfl, rfl⟩)
  rwa [modify_id] at hmove

theorem move_settleOwedCancel' (hphase : phase.settles branch) (hevent : event.isOver branch)
    (hfree : branch ∉ store.held) (hentry : store.kept? branch = some entry) :
  store.Moves phase (store.settleOwedCancel branch entry event)
  := by
  have hmove := move_settleOwedCancel hphase hevent hfree hentry (f := id) (fun _ => ⟨rfl, rfl⟩)
  rwa [modify_id] at hmove

section

variable (store) (now : ℕ) (branch : Text)

theorem moves_keepReadLeg :
  store.Moves (.keepReadLeg branch) (store.access now (.keepReadLeg branch))
  := by
  simp only [access]
  split
  · rename_i entry hentry
    by_cases h : entry.provisional
    · rw [if_pos h]
      exact .seenLeg hentry h
    · rw [if_neg h]
      exact .leave rfl
  · rename_i hnone
    exact .keepOriginated hnone

theorem moves_claim :
  store.Moves (.claim branch) (store.access now (.claim branch))
  := by
  apply move_withEntry
  intro hfree
  cases hentry : store.kept? branch with
  | none => exact .leave rfl
  | some entry =>
  have hawaits := awaits_eq_of_kept? hentry
  dsimp only
  split
  · exact .leave rfl
  rename_i hwaits
  rw [Bool.not_eq_true, Bool.not_eq_false'] at hwaits
  split
  · rename_i hreceived
    have hevent : (CancelEvent.released branch none).settles branch := decide_eq_true rfl
    have hmove : Move store (.claim branch) ((store.settle branch).hold branch)
        (.lower (some branch)) [.released branch none] := by
      refine .settle (decide_eq_true rfl) (.inl hevent) ?_ hfree (hawaits.trans hwaits)
        (fun _ => ⟨rfl, rfl⟩)
      intro _ _
      apply Or.inr
      simp [hentry, hreceived]
    exact hmove
  · exact .hold hfree (hawaits.trans hwaits)

theorem moves_take :
  store.Moves (.take branch) (store.access now (.take branch))
  := by
  apply move_withEntry
  intro hfree
  cases hentry : store.kept? branch with
  | none =>
    apply Move.takeNone
    rw [awaits, hentry]
    rfl
  | some entry =>
  have hawaits := awaits_eq_of_kept? hentry
  dsimp only
  split
  · rename_i hwaits
    apply Move.takeNone
    simpa [hawaits] using hwaits
  rename_i hwaits
  have hevent : (CancelEvent.released branch (some entry.leg)).settles branch :=
    decide_eq_true rfl
  refine .settle (decide_eq_true rfl) (.inl hevent) (fun _ _ => .inl rfl) hfree ?_
    (fun _ => ⟨rfl, rfl⟩)
  simpa [hawaits] using hwaits

theorem moves_expire (due : ℕ) :
  store.Moves (.expire branch due) (store.access now (.expire branch due))
  := by
  apply move_withEntry
  intro hfree
  cases hentry : store.kept? branch with
  | none => exact .leave rfl
  | some entry =>
  dsimp only
  split
  · exact .leave rfl
  · exact .expire hfree hentry

end

/-- Every access is one of the moves. -/
theorem move_access (store : CancelStore) (now : ℕ) (phase : CancelPhase) :
  store.Moves phase (store.access now phase)
  := by
  cases phase with
  | keep leg invite =>
    apply move_withEntry
    intro _
    cases hentry : store.kept? leg.branch with
    | some entry => exact .leave rfl
    | none => exact .keep invite rfl rfl hentry
  | raise branch => exact .raise branch
  | keepReadLeg branch => exact moves_keepReadLeg store now branch
  | keepReadOriginated branch =>
    simp only [access]
    split
    · rename_i h
      exact .seenOriginated h
    · exact .leave rfl
  | mark branch =>
    apply move_withEntry
    intro _
    exact .mark branch
  | claim branch => exact moves_claim store now branch
  | claimReadLeg branch =>
    simp only [access]
    split
    · rename_i entry hentry
      exact move_decideClaim (.inl ⟨rfl, by rw [hentry]; rfl⟩)
    · rename_i hnone
      exact .claimOriginated hnone
  | claimReadOriginated branch => exact move_decideClaim (.inr ⟨rfl, rfl⟩)
  | noteLeg branch =>
    simp only [access]
    split
    · rename_i entry hentry
      exact .noteLeg hentry
    · rename_i hnone
      exact .missLeg hnone
  | noteOriginated branch => exact .noteOriginated branch
  | load branch =>
    simp only [access]
    split
    · rename_i h
      exact .loadZero h
    · exact .load branch
  | take branch => exact moves_take store now branch
  | success branch =>
    apply move_withEntry
    intro hfree
    cases hentry : store.kept? branch with
    | none => exact move_answer_none (decide_eq_true rfl) (decide_eq_true rfl) hentry
    | some entry =>
    exact move_settleOwedCancel (decide_eq_true rfl) (decide_eq_true rfl)
      hfree hentry (fun _ => ⟨rfl, rfl⟩)
  | failure branch | timerSettle branch =>
    apply move_withEntry
    intro hfree
    cases hentry : store.kept? branch with
    | none => exact move_answer_none (decide_eq_true rfl) (decide_eq_true rfl) hentry
    | some entry =>
    exact move_settleOwedCancel' (decide_eq_true rfl) (decide_eq_true rfl) hfree hentry
  | timerLoad branch =>
    simp only [access]
    split
    · rename_i h
      exact .timerZero h
    · exact .timerLoad branch
  | expire branch due => exact moves_expire store now branch due
  | lower held => exact .lower held
  | done => exact .wait .done

namespace LegRegistry

variable {registry : LegRegistry} {branch other : Text}

theorem provisionalReceived_noteLeg_of_ne (h : branch ≠ other) :
  (registry.noteLeg branch).provisionalReceived other = registry.provisionalReceived other
  := by
  rw [provisionalReceived, provisionalReceived, noteLeg]
  rw [get?_modify, if_neg (Ne.symm h)]

theorem provisionalReceived_noteOriginated_of_ne (h : branch ≠ other) :
  (registry.noteOriginated branch).provisionalReceived other = registry.provisionalReceived other
  := by
  rw [provisionalReceived, provisionalReceived, noteOriginated]
  rw [get?_modify, if_neg (Ne.symm h)]

end LegRegistry

/-! ### The CANCELs that wait -/

namespace CancelStore

variable {store : CancelStore} {branch : Text} {f : ZombieCancelledLeg → ZombieCancelledLeg}

/-- How many CANCELs wait for a provisional. -/
def waiting (store : CancelStore) : ℕ :=
  store.zombieCancelled.count (·.awaitingProvisional)

/-- What the count is ahead of the CANCELs that wait. -/
def surplus (store : CancelStore) : ℤ :=
  store.deferredCancels - store.waiting

/-- Whether the entry of a branch says that a provisional had come. -/
def marked (store : CancelStore) (branch : Text) : Bool :=
  (store.kept? branch).any (·.provisionalReceived)

theorem kept?_modify (store : CancelStore) (branch other : Text)
    (f : ZombieCancelledLeg → ZombieCancelledLeg) :
  (store.modify branch f).kept? other =
    if other = branch then (store.kept? branch).map f else store.kept? other :=
  get?_modify _ _ _ _

theorem awaits_modify (hf : ∀ entry, (f entry).awaitingProvisional = entry.awaitingProvisional)
    (other : Text) :
  (store.modify branch f).awaits other = store.awaits other
  := by
  rw [awaits, awaits, kept?_modify]
  split
  · rename_i h
    subst h
    cases store.kept? other <;> simp [hf]
  · rfl

theorem awaits_mark (store : CancelStore) (branch other : Text) :
  (store.modify branch ({ · with provisionalReceived := true })).awaits other = store.awaits other
  := by
  apply awaits_modify
  intro _
  rfl

theorem awaits_modify_settled (hf : ∀ entry, (f entry).awaitingProvisional = false) (other : Text) :
  (store.modify branch f).awaits other = (decide (other ≠ branch) && store.awaits other)
  := by
  rw [awaits, awaits, kept?_modify]
  split
  · rename_i h
    subst h
    cases store.kept? other <;> simp [hf]
  · rename_i h
    simp [h]

theorem marked_modify (hf : ∀ entry, (f entry).provisionalReceived = entry.provisionalReceived)
    (other : Text) :
  (store.modify branch f).marked other = store.marked other
  := by
  rw [marked, marked, kept?_modify]
  split
  · rename_i h
    subst h
    cases store.kept? other <;> simp [hf]
  · rfl

theorem surplus_add_modify (store : CancelStore) (branch : Text)
    (f : ZombieCancelledLeg → ZombieCancelledLeg) :
  (store.modify branch f).surplus + ((store.modify branch f).awaits branch).toNat =
    store.surplus + (store.awaits branch).toNat
  := by
  have hcount := store.zombieCancelled.count_modify branch f (·.awaitingProvisional)
  rw [awaits, awaits, kept?_modify, if_pos rfl]
  simp only [surplus, waiting, CancelStore.modify, kept?]
  omega

theorem surplus_modify (hf : ∀ entry, (f entry).awaitingProvisional = entry.awaitingProvisional) :
  (store.modify branch f).surplus = store.surplus
  := by
  have hsum := store.surplus_add_modify branch f
  rw [awaits_modify hf] at hsum
  exact add_right_cancel hsum

theorem surplus_modify_settled (hf : ∀ entry, (f entry).awaitingProvisional = false)
    (h : store.awaits branch) :
  (store.modify branch f).surplus = store.surplus + 1
  := by
  have hsum := store.surplus_add_modify branch f
  simpa [awaits_modify_settled hf, h] using hsum

end CancelStore

namespace CancelPhase

variable {phase : CancelPhase} {branch : Text}

theorem debt_of_mayLeave (h : phase.mayLeave) :
  phase.debt = 0
  := by
  cases phase <;> simp_all [mayLeave, debt]

theorem holds_of_mayLeave (h : phase.mayLeave) (other : Text) :
  phase.holds other = false
  := by
  cases phase <;> simp_all [mayLeave, holds, claims]

theorem debt_of_settles (h : phase.settles branch) :
  phase.debt = 0
  := by
  cases phase <;> simp_all [settles, debt]

theorem holds_of_settles (h : phase.settles branch) (other : Text) :
  phase.holds other = false
  := by
  cases phase <;> simp_all [settles, holds, claims]

theorem eq_of_brings {other : Text} (hbrings : phase.brings other) (h : phase.settles branch) :
  other = branch
  := by
  cases phase <;> simp_all [brings, settles]

theorem debt_of_claims (h : phase.claims branch) :
  phase.debt = 0
  := by
  cases phase <;> simp_all [claims, debt]

theorem holds_of_claims (h : phase.claims branch) (other : Text) :
  phase.holds other = decide (branch = other)
  := by
  cases phase <;> simp_all [holds, claims]

end CancelPhase

theorem CancelStore.Reads.claims (h : store.Reads branch provisional phase) :
  phase.claims branch
  := by
  rcases h with ⟨rfl, -⟩ | ⟨rfl, -⟩ <;> exact decide_eq_true rfl

theorem CancelStore.Reads.provisionalReceived (h : store.Reads branch provisional phase)
    (horiginated : store.Missed phase) :
  store.registry.provisionalReceived branch = provisional
  := by
  rw [LegRegistry.provisionalReceived]
  rcases h with ⟨rfl, hread⟩ | ⟨rfl, hread⟩
  · cases hentry : store.registry.byBranch.get? branch with
    | none => simp [hentry] at hread
    | some entry => simpa [hentry] using hread
  · rw [horiginated branch (decide_eq_true rfl)]
    exact hread

namespace Move

variable {store next : CancelStore} {phase phase' : CancelPhase} {out : List CancelEvent}

/-- A move keeps the surplus of the count together with what its call has still to do to it. -/
theorem balance (h : Move store phase next phase' out)
    (hclaims : ∀ branch, phase.claims branch → store.awaits branch) :
  next.surplus + phase'.debt = store.surplus + phase.debt
  := by
  cases h with
  | leave h =>
    rw [debt_of_mayLeave h]
    rfl
  | @keep leg entry invite hawaits _ hnone =>
    have hcount := store.zombieCancelled.count_insert leg.branch (·.awaitingProvisional) entry
    rw [show store.zombieCancelled.get? leg.branch = none from hnone] at hcount
    simp only [hawaits, Option.any_none, Bool.toNat_false, Bool.toNat_true] at hcount
    simp only [surplus, waiting, debt]
    omega
  | raise branch | lower held =>
    simp only [surplus, waiting, debt]
    omega
  | mark branch =>
    have hsurplus : (store.modify branch ({ · with provisionalReceived := true })).surplus =
        store.surplus := surplus_modify fun _ => rfl
    rw [hsurplus]
    rfl
  | refuse h =>
    rw [debt_of_claims h.claims]
    rfl
  | @grant _ branch h =>
    have hsurplus : (store.settle branch).surplus = store.surplus + 1 :=
      surplus_modify_settled (fun _ => rfl) (hclaims branch h.claims)
    rw [hsurplus, debt_of_claims h.claims, debt]
    omega
  | @settle _ branch _ f hphase _ _ _ hawaits hf =>
    have hsurplus : ((store.modify branch f).hold branch).surplus = store.surplus + 1 :=
      surplus_modify_settled (fun entry => (hf entry).1) hawaits
    rw [hsurplus, debt_of_settles hphase, debt]
    omega
  | answer hphase _ _ hf =>
    rw [surplus_modify (fun entry => (hf entry).1), debt_of_settles hphase]
    rfl
  | @expire branch due entry _ hentry =>
    have hcount := store.zombieCancelled.count_shiftRemove branch (·.awaitingProvisional)
    rw [kept?] at hentry
    rw [hentry] at hcount
    simp only [surplus, waiting]
    cases hawaits : entry.awaitingProvisional <;>
      simp [hawaits, debt] at hcount ⊢ <;> omega
  | _ => rfl

theorem count_cons_add {held : Text} (l : List Text) :
  (held :: l).count branch = l.count branch + (decide (held = branch)).toNat
  := by
  by_cases heq : held = branch <;> simp [heq]

theorem count_erase_add (branch : Text) {held : Text} {l : List Text} (h : held ∈ l) :
  (l.erase held).count branch + (decide (held = branch)).toNat = l.count branch
  := by
  by_cases heq : held = branch
  · subst heq
    have hpos := count_pos_iff.mpr h
    simp only [count_erase_self, decide_true, Bool.toNat_true]
    omega
  · simp [count_erase_of_ne (Ne.symm heq), heq]

theorem count_held (h : Move store phase next phase' out)
    (hholds : ∀ branch, phase.holds branch → branch ∈ store.held) (branch : Text) :
  next.held.count branch + (phase.holds branch).toNat =
    store.held.count branch + (phase'.holds branch).toNat
  := by
  cases h with
  | leave h =>
    rw [holds_of_mayLeave h]
    rfl
  | hold _ _ => exact count_cons_add _
  | @refuse _ held h =>
    have hheld : held ∈ store.held := hholds held (by simp [holds_of_claims h.claims])
    have hcount := count_erase_add branch hheld
    rw [holds_of_claims h.claims]
    simpa [CancelStore.letGo, holds, claims] using hcount
  | grant h =>
    rw [holds_of_claims h.claims]
    simp [CancelStore.settle, CancelStore.modify, holds]
  | settle hphase _ _ _ _ _ =>
    rw [holds_of_settles hphase]
    simpa [holds, CancelStore.hold, CancelStore.modify] using
      count_cons_add store.held
  | answer hphase _ _ _ =>
    rw [holds_of_settles hphase]
    rfl
  | @expire _ _ entry _ _ =>
    cases entry.awaitingProvisional <;> simp [holds, claims]
  | lower held =>
    cases held with
    | none => simp [holds, claims]
    | some held =>
    have hheld : held ∈ store.held := hholds held (by simp [holds])
    have hcount := count_erase_add branch hheld
    simpa [holds, claims] using hcount
  | _ => rfl

theorem count_held_le (h : Move store phase next phase' out) (hle : store.held.count branch ≤ 1) :
  next.held.count branch ≤ 1
  := by
  have hhold : ∀ held, held ∉ store.held → (held :: store.held).count branch ≤ 1 := by
    intro held hfree
    by_cases heq : held = branch
    · subst heq
      rw [count_cons_self, count_eq_zero_of_not_mem hfree]
    · rwa [count_cons_of_ne heq]
  have herase : ∀ held, (store.held.erase held).count branch ≤ 1 :=
    fun held => (erase_sublist.count_le branch).trans hle
  cases h with
  | hold hfree _ => exact hhold _ hfree
  | settle _ _ _ hfree _ _ => exact hhold _ hfree
  | refuse h => exact herase _
  | lower held =>
    cases held with
    | none => exact hle
    | some held => exact herase held
  | _ => exact hle

/-- What a move does to the CANCEL of a branch: it spares it, makes it wait or ends its wait.  Only
Timer B passes a branch by, where the count is zero. -/
inductive Effect (store : CancelStore) (phase : CancelPhase) (next : CancelStore)
    (out : List CancelEvent) (branch : Text) : Prop where
  | spared (hsame : next.awaits branch = store.awaits branch) (hkept : .kept branch ∉ out)
      (hevents : store.awaits branch → ∀ event ∈ out, event.settles branch = false ∧
        (event = .timedOut branch → phase.loads ∧ store.deferredCancels = 0))
  | kept (hout : out = [.kept branch]) (hbefore : store.awaits branch = false)
      (hafter : next.awaits branch)
  | ended {event : CancelEvent} (hout : out = [event])
      (hevent : event.settles branch ∨ event = .timedOut branch)
      (hafter : next.awaits branch = false) (hheld : branch ∈ store.held → phase.holds branch)

theorem effect_of_settled {settled : Text}
    (hkeep : next.awaits branch = (decide (branch ≠ settled) && store.awaits branch))
    (hevent : event.settles settled ∨ event = .timedOut settled)
    (hheld : settled ∈ store.held → phase.holds settled) :
  Effect store phase next [event] branch
  := by
  by_cases heq : branch = settled
  · subst heq
    exact .ended rfl hevent (by simp [hkeep]) hheld
  have hevents : event ≠ .kept branch ∧ event.settles branch = false ∧
      event ≠ .timedOut branch := by
    rcases hevent with hevent | rfl
    · cases event <;> simp_all [CancelEvent.settles, Ne.symm heq]
    · simp [CancelEvent.settles, Ne.symm heq]
  refine .spared (by simp [hkeep, heq]) (by simpa [eq_comm] using hevents.1) fun _ => ?_
  simp [hevents]

section

variable (h : Move store phase next phase' out)

include h

theorem effect (branch : Text) :
  Effect store phase next out branch
  := by
  cases h with
  | @keep leg entry invite hawaits _ hnone =>
    by_cases heq : leg.branch = branch
    · subst heq
      refine .kept rfl (by simp [awaits, hnone]) ?_
      rw [awaits, kept?, get?_insert, if_pos rfl]
      exact hawaits
    · refine .spared ?_ (by simpa [eq_comm] using heq) (by simp [CancelEvent.settles])
      rw [awaits, kept?, get?_insert, if_neg (Ne.symm heq)]
      rfl
  | mark marked => exact .spared (awaits_mark store marked branch) (by simp) (by simp)
  | @grant _ settled h =>
    refine effect_of_settled (awaits_modify_settled (fun _ => rfl) branch)
      (.inl (decide_eq_true rfl)) fun _ => ?_
    simp [holds_of_claims h.claims]
  | settle _ hevent _ hfree _ hf =>
    exact effect_of_settled (awaits_modify_settled (fun entry => (hf entry).1) branch) hevent
      fun hheld => absurd hheld hfree
  | @answer _ answered event f _ hevent hnot hf =>
    refine .spared (awaits_modify (fun entry => (hf entry).1) branch) ?_ fun hawaits => ?_
    · rw [mem_singleton]
      rintro rfl
      cases hevent
    · have hne : answered ≠ branch := by
        rintro rfl
        rw [hnot] at hawaits
        cases hawaits
      cases event <;> simp_all [CancelEvent.isOver, CancelEvent.settles]
  | @expire removed _ _ hfree _ =>
    have hkeep : CancelStore.awaits
        { store with zombieCancelled := store.zombieCancelled.shiftRemove removed } branch =
        (decide (branch ≠ removed) && store.awaits branch) := by
      by_cases heq : branch = removed <;> simp [awaits, kept?, get?_shiftRemove, heq]
    exact effect_of_settled hkeep (.inl (decide_eq_true rfl)) fun hheld => absurd hheld hfree
  | timerZero hzero =>
    exact .spared rfl (by simp) (by simp [CancelEvent.settles, loads, hzero])
  | refuse _ | noteLeg _ | missLeg _ => exact .spared rfl (by simp) (by simp [CancelEvent.settles])
  | _ => exact .spared rfl (by simp) (by simp)

theorem awaits_cases (hawaits : next.awaits branch) :
  out = [.kept branch] ∨
    (store.awaits branch ∧ ∀ event ∈ out, event ≠ .kept branch ∧ event.settles branch = false ∧
      (event = .timedOut branch → phase.loads ∧ store.deferredCancels = 0))
  := by
  cases h.effect branch with
  | spared hsame hkept hevents =>
    have hbefore := hsame.symm.trans hawaits
    exact .inr ⟨hbefore, fun event hmem => ⟨fun heq => hkept (heq ▸ hmem),
      hevents hbefore event hmem⟩⟩
  | kept hout _ _ => exact .inl hout
  | ended _ _ hafter _ => cases hafter.symm.trans hawaits

theorem awaits_of_kept (hkept : .kept branch ∈ out) :
  next.awaits branch
  := by
  cases h.effect branch with
  | spared _ hnot _ => exact absurd hkept hnot
  | kept _ _ hafter => exact hafter
  | ended hout hevent _ _ =>
    obtain rfl := mem_singleton.mp (hout ▸ hkept)
    simp [CancelEvent.settles] at hevent

theorem ended_cases (hbefore : store.awaits branch) (hafter : next.awaits branch = false) :
  ∃ event ∈ out, event.settles branch ∨ event = .timedOut branch
  := by
  cases h.effect branch with
  | spared hsame _ _ => cases hafter.symm.trans (hsame.trans hbefore)
  | kept _ _ hwaits => cases hafter.symm.trans hwaits
  | ended hout hevent _ _ => exact ⟨_, by simp [hout], hevent⟩

theorem awaits_of_held (hheld : branch ∈ store.held)
    (hother : phase.holds branch = false) (hawaits : store.awaits branch) :
  next.awaits branch
  := by
  cases h.effect branch with
  | spared hsame _ _ => exact hsame.trans hawaits
  | kept _ _ hafter => exact hafter
  | ended _ _ _ hholds => cases hother.symm.trans (hholds hheld)

theorem provisionalReceived_cases (hreceived : next.registry.provisionalReceived branch) :
  store.registry.provisionalReceived branch ∨
    (phase'.brings branch ∧ (phase = .noteOriginated branch ∨ out = [.provisional branch]))
  := by
  cases h with
  | @noteLeg noted entry hentry =>
    by_cases heq : noted = branch
    · subst heq
      exact .inr ⟨decide_eq_true rfl, .inr rfl⟩
    · rw [LegRegistry.provisionalReceived_noteLeg_of_ne heq] at hreceived
      exact .inl hreceived
  | noteOriginated noted =>
    by_cases heq : noted = branch
    · subst heq
      exact .inr ⟨decide_eq_true rfl, .inl rfl⟩
    · rw [LegRegistry.provisionalReceived_noteOriginated_of_ne heq] at hreceived
      exact .inl hreceived
  | _ => exact .inl hreceived

theorem byBranch_none (branch : Text) :
  next.registry.byBranch.get? branch = none ↔ store.registry.byBranch.get? branch = none
  := by
  cases h with
  | noteLeg hentry =>
    simp only [LegRegistry.noteLeg, get?_modify]
    split
    · rename_i heq
      subst heq
      simp
    · rfl
  | _ => rfl

theorem brings_cases (hbrings : phase.brings branch) :
  phase'.brings branch ∨ next.awaits branch = false ∨
    (phase.loads ∧ store.deferredCancels = 0)
  := by
  cases h with
  | wait | noteOriginated | load => exact .inl hbrings
  | loadZero hzero => exact .inr (.inr ⟨rfl, hzero⟩)
  | takeNone hnot =>
    rw [brings, decide_eq_true_eq] at hbrings
    exact .inr (.inl (hbrings ▸ hnot))
  | @settle _ settled _ f hphase _ _ _ _ hf =>
    have heq := eq_of_brings hbrings hphase
    have hkeep : ((store.modify settled f).hold settled).awaits branch =
        (decide (branch ≠ settled) && store.awaits branch) :=
      awaits_modify_settled (fun entry => (hf entry).1) branch
    exact .inr (.inl (by rw [hkeep, heq]; simp))
  | @answer _ answered _ f hphase _ hnot hf =>
    have heq := eq_of_brings hbrings hphase
    rw [heq, awaits_modify (fun entry => (hf entry).1)]
    exact .inr (.inl hnot)
  | leave h => cases phase <;> simp_all [brings, mayLeave]
  | refuse h | grant h => rcases h with ⟨rfl, -⟩ | ⟨rfl, -⟩ <;> cases hbrings
  | _ => cases hbrings

theorem marked_cases (hmarked : next.marked branch) :
  store.marked branch ∨ phase = .mark branch
  := by
  cases h with
  | @keep leg entry invite _ hsilent _ =>
    rw [marked, kept?, get?_insert] at hmarked
    split at hmarked
    · simp [hsilent] at hmarked
    · exact .inl hmarked
  | mark marked =>
    by_cases heq : branch = marked
    · subst heq
      exact .inr rfl
    · rw [CancelStore.marked, kept?_modify, if_neg heq] at hmarked
      exact .inl hmarked
  | @grant _ settled _ =>
    have hkeep : (store.settle settled).marked branch = store.marked branch := by
      apply marked_modify
      intro _
      rfl
    exact .inl (hkeep.symm.trans hmarked)
  | @settle _ settled _ f _ _ _ _ _ hf =>
    have hkeep : ((store.modify settled f).hold settled).marked branch = store.marked branch :=
      marked_modify (fun entry => (hf entry).2) branch
    exact .inl (hkeep.symm.trans hmarked)
  | answer _ _ _ hf =>
    rw [marked_modify (fun entry => (hf entry).2)] at hmarked
    exact .inl hmarked
  | expire _ _ =>
    rw [marked, kept?, get?_shiftRemove] at hmarked
    split at hmarked
    · simp at hmarked
    · exact .inl hmarked
  | _ => exact .inl hmarked

theorem released_cases {leg : Option Leg}
    (hclaims : ∀ branch, phase.claims branch → store.awaits branch)
    (horiginated : store.Missed phase) (hreleased : .released branch leg ∈ out) :
  store.awaits branch ∧
    (phase.brings branch ∨ store.marked branch ∨ store.registry.provisionalReceived branch)
  := by
  cases h with
  | @grant _ settled hreads =>
    rw [mem_singleton, CancelEvent.released.injEq] at hreleased
    obtain ⟨rfl, -⟩ := hreleased
    exact ⟨hclaims branch hreads.claims, .inr (.inr (hreads.provisionalReceived horiginated))⟩
  | @settle _ settled _ f hphase hevent hsource _ hawaits _ =>
    obtain rfl := mem_singleton.mp hreleased
    have heq : settled = branch := by simpa [CancelEvent.settles, eq_comm] using hevent
    subst heq
    refine ⟨hawaits, ?_⟩
    rcases hsource leg rfl with rfl | hmarked
    · exact .inl (decide_eq_true rfl)
    · exact .inr (.inl hmarked)
  | answer _ hevent _ _ =>
    obtain rfl := mem_singleton.mp hreleased
    cases hevent
  | _ => simp at hreleased

theorem refused_cases (horiginated : store.Missed phase) (hrefused : .refused branch ∈ out) :
  next.registry.provisionalReceived branch = false
  := by
  cases h with
  | refuse hreads =>
    rw [mem_singleton, CancelEvent.refused.injEq] at hrefused
    subst hrefused
    exact hreads.provisionalReceived horiginated
  | settle _ hevent _ _ _ _ =>
    obtain rfl := mem_singleton.mp hrefused
    simp [CancelEvent.settles] at hevent
  | answer _ hevent _ _ =>
    obtain rfl := mem_singleton.mp hrefused
    cases hevent
  | _ => simp at hrefused

theorem brings_of_provisional (hprovisional : .provisional branch ∈ out) :
  phase'.brings branch
  := by
  cases h with
  | noteLeg hentry | missLeg hnone => simpa [brings, eq_comm] using hprovisional
  | settle _ hevent _ _ _ _ =>
    obtain rfl := mem_singleton.mp hprovisional
    simp [CancelEvent.settles] at hevent
  | answer _ hevent _ _ =>
    obtain rfl := mem_singleton.mp hprovisional
    cases hevent
  | _ => simp at hprovisional

theorem provisional_of_brings (hbrings : phase'.brings branch) :
  phase.brings branch ∨ .provisional branch ∈ out
  := by
  cases h with
  | wait | noteOriginated | load => exact .inl hbrings
  | noteLeg hentry | missLeg hnone => exact .inr (by simpa [brings, eq_comm] using hbrings)
  | expire _ _ => split at hbrings <;> cases hbrings
  | _ => cases hbrings

theorem mark_cases (horiginated : store.Missed phase) (hmark : phase' = .mark branch) :
  phase = .mark branch ∨ store.registry.provisionalReceived branch
  := by
  cases h with
  | wait phase => exact .inl hmark
  | seenLeg hentry hprovisional =>
    cases hmark
    exact .inr (by simpa [LegRegistry.provisionalReceived, hentry] using hprovisional)
  | seenOriginated hprovisional =>
    cases hmark
    have hnone := horiginated branch (decide_eq_true rfl)
    exact .inr (by simpa [LegRegistry.provisionalReceived, hnone] using hprovisional)
  | expire _ _ => split at hmark <;> cases hmark
  | _ => cases hmark

theorem readsOriginated_cases (hreads : phase'.readsOriginated branch) :
  phase.readsOriginated branch ∨ store.registry.byBranch.get? branch = none
  := by
  cases h with
  | wait phase => exact .inl hreads
  | keepOriginated hnone | claimOriginated hnone =>
    rw [readsOriginated, decide_eq_true_eq] at hreads
    exact .inr (hreads ▸ hnone)
  | expire _ _ => split at hreads <;> cases hreads
  | _ => cases hreads

theorem awaits_of_claims (hclaims : phase.claims branch → store.awaits branch)
    (hnext : phase'.claims branch) :
  next.awaits branch
  := by
  cases h with
  | wait | claimOriginated => exact hclaims hnext
  | hold _ hawaits =>
    rw [claims, decide_eq_true_eq] at hnext
    exact hnext ▸ hawaits
  | expire _ _ => split at hnext <;> cases hnext
  | _ => cases hnext

end

end Move

end Siphon.B2bua
