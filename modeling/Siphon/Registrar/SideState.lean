import Siphon.Library.Issued
import Siphon.Library.Run
import Siphon.Library.Text

/-!
# The side state of an address of record

Service routes, the asserted identity and the associated URIs of an address of record live in three
maps without a common lock.  Calls run interleaved, one access of a map or one draw at a time.
-/

namespace Siphon.Registrar

open List

/-! ### The maps of one address of record -/

/-- The entry for a list: none if it is empty. -/
def entryOf {α : Type} : List α → Option (List α)
  | [] => none
  | list => some list

theorem entryOf_ne_nil {α : Type} (list : List α) :
  entryOf list ≠ some []
  := by
  cases list <;> simp [entryOf]

/-- The entries of the three maps.  A list in them is not empty. -/
structure AorMaps where
  serviceRoutes : Option (List Text)
  assertedIdentity : Option Text
  associatedUris : Option (List Text)
  routes_ne : serviceRoutes ≠ some []
  uris_ne : associatedUris ≠ some []

namespace AorMaps

def empty : AorMaps :=
  ⟨none, none, none, by simp, by simp⟩

/-- Insert the routes, or remove the entry if there are none. -/
def setServiceRoutes (maps : AorMaps) (routes : List Text) : AorMaps :=
  { maps with serviceRoutes := entryOf routes, routes_ne := entryOf_ne_nil routes }

def setAssertedIdentity (maps : AorMaps) (identity : Option Text) : AorMaps :=
  { maps with assertedIdentity := identity }

/-- Insert the URIs, or remove the entry if there are none. -/
def setAssociatedUris (maps : AorMaps) (uris : List Text) : AorMaps :=
  { maps with associatedUris := entryOf uris, uris_ne := entryOf_ne_nil uris }

end AorMaps

/-! ### What the backend gets -/

structure StoredAorState where
  serviceRoutes : List Text
  assertedIdentity : Option Text
  associatedUris : List Text
deriving DecidableEq

def StoredAorState.isEmpty (state : StoredAorState) : Bool :=
  state.serviceRoutes.isEmpty && state.assertedIdentity.isNone && state.associatedUris.isEmpty

inductive BackendWrite where
  | save (state : StoredAorState)
  | remove
deriving DecidableEq

def StoredAorState.write (state : StoredAorState) : BackendWrite :=
  if state.isEmpty then .remove else .save state

/-- Apply a state loaded from the backend to the maps. -/
def AorMaps.applyAorState (maps : AorMaps) (state : StoredAorState) : AorMaps :=
  let maps := if !state.serviceRoutes.isEmpty then maps.setServiceRoutes state.serviceRoutes
    else maps
  let maps := match state.assertedIdentity with
    | some identity => maps.setAssertedIdentity (some identity)
    | none => maps
  if !state.associatedUris.isEmpty then maps.setAssociatedUris state.associatedUris else maps

/-- The maps that a write describes: those a restart finds. -/
def BackendWrite.restored : BackendWrite → AorMaps
  | .save state => AorMaps.empty.applyAorState state
  | .remove => AorMaps.empty

/-! ### Calls -/

inductive AorCall where
  | setServiceRoutes (routes : List Text)
  | setAssociatedUris (uris : List Text)
  | setAssertedIdentity (identity : Text)
  | dropAorState
deriving DecidableEq

inductive Phase where
  | change (call : AorCall)
  /-- The second and third removal of `drop_aor_state`, with whether anything was removed. -/
  | dropIdentity (removed : Bool)
  | dropUris (removed : Bool)
  | draw
  | readRoutes (sequence : ℕ)
  | readIdentity (sequence : ℕ) (routes : List Text)
  | readUris (sequence : ℕ) (routes : List Text) (identity : Option Text)
  | write (sequence : ℕ) (state : StoredAorState)
  | done
deriving DecidableEq

/-- The maps, the last number drawn, the calls and what they have handed to the backend. -/
structure SideState where
  maps : AorMaps
  sequence : ℕ := 0
  calls : List Phase := []
  written : List (ℕ × BackendWrite) := []

def SideState.access (state : SideState) : Phase → SideState × Phase
  | .change (.setServiceRoutes routes) =>
    ({ state with maps := state.maps.setServiceRoutes routes }, .draw)
  | .change (.setAssociatedUris uris) =>
    ({ state with maps := state.maps.setAssociatedUris uris }, .draw)
  | .change (.setAssertedIdentity identity) =>
    ({ state with maps := state.maps.setAssertedIdentity (some identity) }, .draw)
  | .change .dropAorState =>
    ({ state with maps := state.maps.setServiceRoutes [] },
      .dropIdentity state.maps.serviceRoutes.isSome)
  | .dropIdentity removed =>
    ({ state with maps := state.maps.setAssertedIdentity none },
      .dropUris (removed || state.maps.assertedIdentity.isSome))
  | .dropUris removed =>
    ({ state with maps := state.maps.setAssociatedUris [] },
      if removed || state.maps.associatedUris.isSome then .draw else .done)
  | .draw => ({ state with sequence := state.sequence + 1 }, .readRoutes (state.sequence + 1))
  | .readRoutes sequence =>
    (state, .readIdentity sequence (state.maps.serviceRoutes.getD []))
  | .readIdentity sequence routes => (state, .readUris sequence routes state.maps.assertedIdentity)
  | .readUris sequence routes identity =>
    (state, .write sequence ⟨routes, identity, state.maps.associatedUris.getD []⟩)
  | .write sequence stored =>
    ({ state with written := state.written ++ [(sequence, stored.write)] }, .done)
  | .done => (state, .done)

/-- A call begins, or the call at an index makes its next access. -/
inductive SideInput where
  | begin (call : AorCall)
  | run (index : ℕ)

def sideMachine : Machine SideState SideInput Empty where
  step state
    | .begin call => ({ state with calls := state.calls ++ [.change call] }, [])
    | .run index =>
      match state.calls[index]? with
      | none => (state, [])
      | some phase =>
        let (next, phase) := state.access phase
        ({ next with calls := next.calls.set index phase }, [])

/-! ### What the highest number has seen -/

namespace Phase

/-- The number a call has drawn and not written yet, and whether what it has read since is in the
maps. -/
def view? : Phase → Option (ℕ × (AorMaps → Prop))
  | .readRoutes sequence => some (sequence, fun _ => True)
  | .readIdentity sequence routes =>
    some (sequence, fun maps => routes = maps.serviceRoutes.getD [])
  | .readUris sequence routes identity => some (sequence, fun maps =>
    routes = maps.serviceRoutes.getD [] ∧ identity = maps.assertedIdentity)
  | .write sequence state => some (sequence, fun maps => state =
    ⟨maps.serviceRoutes.getD [], maps.assertedIdentity, maps.associatedUris.getD []⟩)
  | _ => none

/-- Whether a call has changed a map and not drawn its number yet. -/
def dirty : Phase → Bool
  | .dropIdentity removed => removed
  | .dropUris removed => removed
  | .draw => true
  | _ => false

end Phase

theorem restored_write (maps : AorMaps) :
  (StoredAorState.mk (maps.serviceRoutes.getD []) maps.assertedIdentity
    (maps.associatedUris.getD [])).write.restored = maps
  := by
  obtain ⟨routes, identity, uris, hroutes, huris⟩ := maps
  match routes, identity, uris with
  | none, none, none => rfl
  | none, none, some (_ :: _) => rfl
  | none, some _, none => rfl
  | none, some _, some (_ :: _) => rfl
  | some (_ :: _), none, none => rfl
  | some (_ :: _), none, some (_ :: _) => rfl
  | some (_ :: _), some _, none => rfl
  | some (_ :: _), some _, some (_ :: _) => rfl
  | some [], _, _ => exact absurd rfl hroutes
  | _, _, some [] => exact absurd rfl huris

namespace SideState

/-- The numbers that were drawn, with what was read under them. -/
def views (written : List (ℕ × BackendWrite)) (calls : List Phase) : List (ℕ × (AorMaps → Prop)) :=
  Issued.writes Phase.view?
    (written.map fun entry => (entry.1, fun maps => entry.2.restored = maps)) calls

/-- Some call has changed a map and not drawn its number yet. -/
def Dirty (calls : List Phase) : Prop :=
  ∃ phase ∈ calls, phase.dirty = true

/-- Unless a change is still to be numbered, the highest number is that of a call that has read
nothing that has changed since. -/
structure Current (initial : AorMaps) (state : SideState) : Prop where
  le : ∀ view ∈ views state.written state.calls, view.1 ≤ state.sequence
  highest : 0 < state.sequence → ∃ view ∈ views state.written state.calls, view.1 = state.sequence
  reads : ¬ Dirty state.calls → ∀ view ∈ views state.written state.calls,
    view.1 = state.sequence → view.2 state.maps
  unchanged : ¬ Dirty state.calls → state.sequence = 0 → state.maps = initial

variable {initial maps : AorMaps} {sequence : ℕ} {before after : List Phase} {phase next : Phase}
  {written : List (ℕ × BackendWrite)}
  (h : Current initial ⟨maps, sequence, before ++ phase :: after, written⟩)

theorem dirty_middle :
  Dirty (before ++ phase :: after) ↔ phase.dirty = true ∨ Dirty (before ++ after)
  := by
  simp only [Dirty, mem_append, mem_cons]
  grind

include h

/-- A call that is to draw a number changes a map. -/
theorem Current.change (hbefore : phase.view? = none) (hafter : next.view? = none)
    (hdirty : next.dirty = true) (changed : AorMaps) :
  Current initial ⟨changed, sequence, before ++ next :: after, written⟩
  := by
  have hviews : (views written (before ++ next :: after)).Perm
      (views written (before ++ phase :: after)) :=
    Issued.perm_of_same (hafter.trans hbefore.symm)
  have hnow : Dirty (before ++ next :: after) := dirty_middle.mpr (.inl hdirty)
  refine ⟨?_, ?_, fun hnot => absurd hnow hnot, fun hnot => absurd hnow hnot⟩
  · intro view hview
    exact h.le view (hviews.mem_iff.mp hview)
  · intro hpos
    obtain ⟨view, hview, heq⟩ := h.highest hpos
    exact ⟨view, hviews.mem_iff.mpr hview, heq⟩

/-- What a call has read goes on as something that is in the maps if that was. -/
theorem Current.goesOn {written' : List (ℕ × BackendWrite)} (hclean : phase.dirty = false)
    {old new : Option (ℕ × (AorMaps → Prop))} {rest : List (ℕ × (AorMaps → Prop))}
    (hold : (views written (before ++ phase :: after)).Perm (old.toList ++ rest))
    (hnew : (views written' (before ++ next :: after)).Perm (new.toList ++ rest))
    (hreads : Option.Rel (fun v w => w.1 = v.1 ∧ (v.2 maps → w.2 maps)) old new) :
  Current initial ⟨maps, sequence, before ++ next :: after, written'⟩
  := by
  have hdirty : ¬ Dirty (before ++ next :: after) → ¬ Dirty (before ++ phase :: after) := by
    simp only [dirty_middle, hclean]
    grind
  have hfrom : ∀ view ∈ views written' (before ++ next :: after),
      ∃ read ∈ views written (before ++ phase :: after),
        view.1 = read.1 ∧ (read.2 maps → view.2 maps) := by
    simp only [hold.mem_iff, hnew.mem_iff, mem_append, Option.mem_toList]
    rintro view (hview | hview)
    · cases hreads with
      | none => cases hview
      | some hgoes =>
        cases hview
        exact ⟨_, .inl rfl, hgoes⟩
    · exact ⟨view, .inr hview, rfl, id⟩
  have hto : ∀ read ∈ views written (before ++ phase :: after),
      ∃ view ∈ views written' (before ++ next :: after), view.1 = read.1 := by
    simp only [hold.mem_iff, hnew.mem_iff, mem_append, Option.mem_toList]
    rintro read (hread | hread)
    · cases hreads with
      | none => cases hread
      | some hgoes =>
        cases hread
        exact ⟨_, .inl rfl, hgoes.1⟩
    · exact ⟨read, .inr hread, rfl⟩
  refine ⟨?_, ?_, ?_, fun hnot => h.unchanged (hdirty hnot)⟩
  · intro view hview
    obtain ⟨read, hread, heq, -⟩ := hfrom view hview
    exact heq ▸ h.le read hread
  · intro hpos
    obtain ⟨read, hread, heq⟩ := h.highest hpos
    obtain ⟨view, hview, hsame⟩ := hto read hread
    exact ⟨view, hview, hsame.trans heq⟩
  · intro hnot view hview heq
    obtain ⟨read, hread, hsame, hgoes⟩ := hfrom view hview
    exact hgoes (h.reads (hdirty hnot) read hread (hsame.symm.trans heq))

theorem Current.quiet (hclean : phase.dirty = false)
    (hreads : Option.Rel (fun v w => w.1 = v.1 ∧ (v.2 maps → w.2 maps)) phase.view? next.view?) :
  Current initial ⟨maps, sequence, before ++ next :: after, written⟩
  := h.goesOn hclean (Issued.perm_writes _ _ _ _) (Issued.perm_writes _ _ _ _) hreads

/-- What a call reads after it has drawn the next number is in the maps. -/
theorem Current.draw (hbefore : phase.view? = none)
    (hafter : next.view? = some (sequence + 1, fun _ => True)) :
  Current initial ⟨maps, sequence + 1, before ++ next :: after, written⟩
  := by
  have hviews : ∀ view, view ∈ views written (before ++ next :: after) ↔
      view = (sequence + 1, fun _ => True) ∨ view ∈ views written (before ++ phase :: after) := by
    intro view
    rw [views, (Issued.perm_of_drawn hbefore).mem_iff, hafter]
    exact mem_cons
  refine ⟨?_, fun _ => ⟨_, (hviews _).mpr (.inl rfl), rfl⟩, ?_, fun _ hzero => by cases hzero⟩
  · intro view hview
    rcases (hviews view).mp hview with rfl | hview
    · exact Nat.le_refl _
    · exact Nat.le_succ_of_le (h.le view hview)
  · intro _ view hview heq
    rcases (hviews view).mp hview with rfl | hview
    · trivial
    · exact absurd (heq ▸ h.le view hview) (Nat.not_succ_le_self _)

/-- What a call hands over is what it has read. -/
theorem Current.write {number : ℕ} {stored : StoredAorState}
    (hphase : phase = .write number stored) :
  Current initial
    ⟨maps, sequence, before ++ .done :: after, written ++ [(number, stored.write)]⟩
  := by
  subst hphase
  refine h.goesOn rfl (Issued.perm_writes _ _ _ _) ?_
    (.some (b := (number, fun maps => stored.write.restored = maps)) ⟨rfl, ?_⟩)
  · rw [views, map_append]
    refine (Issued.perm_writes _ _ _ _).trans ?_
    simp only [Phase.view?, Option.toList_none, nil_append, Issued.writes, append_assoc]
    exact perm_middle
  · rintro rfl
    exact restored_write maps

theorem current_access :
  Current initial { (access ⟨maps, sequence, before ++ phase :: after, written⟩ phase).1 with
    calls := before ++
      (access ⟨maps, sequence, before ++ phase :: after, written⟩ phase).2 :: after }
  := by
  cases phase with
  | change call =>
    cases call with
    | setServiceRoutes routes | setAssociatedUris uris | setAssertedIdentity identity =>
      exact h.change rfl rfl rfl _
    | dropAorState =>
      rw [access]
      cases hroutes : maps.serviceRoutes with
      | none =>
        have hsame : maps.setServiceRoutes [] = maps := by
          simp [AorMaps.setServiceRoutes, entryOf, ← hroutes]
        rw [hsame]
        exact h.quiet rfl .none
      | some routes => exact h.change rfl rfl rfl _
  | dropIdentity removed =>
    rw [access]
    cases hidentity : maps.assertedIdentity with
    | none =>
      have hsame : maps.setAssertedIdentity none = maps := by
        simp [AorMaps.setAssertedIdentity, ← hidentity]
      rw [hsame]
      cases removed
      · exact h.quiet rfl .none
      · exact h.change rfl rfl rfl _
    | some identity =>
      rw [Option.isSome_some, Bool.or_true]
      exact h.change rfl rfl rfl _
  | dropUris removed =>
    rw [access]
    cases huris : maps.associatedUris with
    | none =>
      have hsame : maps.setAssociatedUris [] = maps := by
        simp [AorMaps.setAssociatedUris, entryOf, ← huris]
      rw [hsame]
      cases removed
      · exact h.quiet rfl .none
      · exact h.change rfl rfl rfl _
    | some uris =>
      rw [Option.isSome_some, Bool.or_true]
      exact h.change rfl rfl rfl _
  | draw => exact h.draw rfl rfl
  | readRoutes number => exact h.quiet rfl (.some ⟨rfl, fun _ => rfl⟩)
  | readIdentity number routes => exact h.quiet rfl (.some ⟨rfl, fun hread => ⟨hread, rfl⟩⟩)
  | readUris number routes identity =>
    refine h.quiet rfl (.some ⟨rfl, ?_⟩)
    rintro ⟨rfl, rfl⟩
    rfl
  | write number stored => exact h.write rfl
  | done => exact h.quiet rfl .none

omit h in
/-- Every input keeps the highest write current. -/
theorem current_step {state : SideState} (h : state.Current initial) (input : SideInput) :
  (sideMachine.step state input).1.Current initial
  := by
  obtain ⟨maps, sequence, calls, written⟩ := state
  cases input with
  | begin call =>
    have hviews : views written (calls ++ [.change call]) = views written calls :=
      Issued.writes_begin calls rfl
    have hdirty : Dirty (calls ++ [.change call]) ↔ Dirty calls := by
      simp [Dirty, or_and_right, exists_or, Phase.dirty]
    obtain ⟨hle, hhighest, hreads, hunchanged⟩ := h
    constructor <;> simpa only [sideMachine, hviews, hdirty]
  | run index =>
    simp only [sideMachine]
    split
    · exact h
    · rename_i phase hphase
      obtain ⟨before, after, rfl, rfl⟩ := Slice.exists_split_of_getElem? hphase
      have hset : ∀ next, (before ++ phase :: after).set before.length next
          = before ++ next :: after := by simp
      have hcurrent := current_access h
      cases phase with
      | change call => cases call <;> simpa only [access, hset] using hcurrent
      | _ => simpa only [access, hset] using hcurrent

end SideState

/-- When all calls have ended, the write with the highest number describes the maps; without a write
they are as they were. -/
theorem highest_write_describes_maps (initial : AorMaps) (inputs : List SideInput)
    (hdone : ∀ phase ∈ (sideMachine.run { maps := initial } inputs).calls, phase = .done) :
  let state := sideMachine.run { maps := initial } inputs
  (∀ entry ∈ state.written, (∀ other ∈ state.written, other.1 ≤ entry.1) →
    entry.2.restored = state.maps) ∧
  (state.written = [] → state.maps = initial)
  := by
  intro state
  have hinv : sideMachine.Invariant (SideState.Current initial) :=
    fun _ input h => SideState.current_step h input
  have hnew : SideState.Current initial { maps := initial } := by
    constructor <;> simp [SideState.views, Issued.writes]
  have h : state.Current initial := hinv.run hnew inputs
  have hclean : ¬ SideState.Dirty state.calls := by
    rintro ⟨phase, hphase, hdirty⟩
    rw [hdone phase hphase] at hdirty
    exact absurd hdirty (by decide)
  have hviews : ∀ view, view ∈ SideState.views state.written state.calls ↔
      ∃ entry ∈ state.written, (entry.1, fun maps => entry.2.restored = maps) = view := by
    have hnone : state.calls.filterMap Phase.view? = [] :=
      filterMap_eq_nil_iff.mpr fun phase hphase => by rw [hdone phase hphase]; rfl
    simp [SideState.views, Issued.writes, hnone]
  have hhighest : 0 < state.sequence → ∃ entry ∈ state.written, entry.1 = state.sequence := by
    intro hpos
    obtain ⟨view, hview, heq⟩ := h.highest hpos
    obtain ⟨entry, hentry, rfl⟩ := (hviews view).mp hview
    exact ⟨entry, hentry, heq⟩
  apply And.intro
  · intro entry hentry hmax
    have hview := (hviews _).mpr ⟨entry, hentry, rfl⟩
    refine h.reads hclean _ hview (le_antisymm (h.le _ hview) ?_)
    rcases Nat.eq_zero_or_pos state.sequence with hzero | hpos
    · rw [hzero]
      exact Nat.zero_le _
    · obtain ⟨other, hother, hsequence⟩ := hhighest hpos
      rw [← hsequence]
      exact hmax other hother
  · intro hnone
    apply h.unchanged hclean
    by_contra hne
    obtain ⟨entry, hentry, -⟩ := hhighest (Nat.pos_of_ne_zero hne)
    rw [hnone] at hentry
    simp at hentry

/-- Routes are set while the state is dropped: the call that set them writes last, and its number is
the lower one. -/
def setAndDrop : List SideInput :=
  [.begin (.setServiceRoutes ["sip:a".toList]), .begin .dropAorState, .run 0, .run 0, .run 0,
    .run 1, .run 1, .run 1, .run 1, .run 1, .run 1, .run 1, .run 1, .run 0, .run 0, .run 0]

theorem highest_write_describes_maps_setAndDrop :
  let state := sideMachine.run { maps := .empty } setAndDrop
  state.written = [(2, .remove), (1, .save ⟨["sip:a".toList], none, []⟩)] ∧
    BackendWrite.remove.restored = state.maps
  := by
  have hdone : ∀ phase ∈ (sideMachine.run { maps := .empty } setAndDrop).calls, phase = .done := by
    decide +kernel
  have hwritten : (sideMachine.run { maps := .empty } setAndDrop).written =
      [(2, .remove), (1, .save ⟨["sip:a".toList], none, []⟩)] := by decide +kernel
  have hall := (highest_write_describes_maps .empty setAndDrop hdone).1
  rw [hwritten] at hall
  exact ⟨hwritten, hall (2, .remove) (by simp) (by simp)⟩

end Siphon.Registrar
