import Siphon.Ifc.ProfileStore
import Siphon.Library.Issued

/-!
# The highest write describes the profile

The number of a write is drawn after the profile was changed, under another lock.
-/

namespace Siphon.Ifc

open List

/-! ### What an access does -/

section

variable {γ : Type} {parseUserProfile : Text → Option (UserProfile γ)}

/-- A call that stores a profile has it from its XML. -/
def ProfilePhase.Parsed (parseUserProfile : Text → Option (UserProfile γ)) : ProfilePhase γ → Prop
  | .noteSharedIds xml profile => parseUserProfile xml = some profile
  | .insertProfile xml ifcs _ =>
    ∃ profile, parseUserProfile xml = some profile ∧ ifcs = profile.ifcs
  | _ => True

/-- An access changes the profile, draws a number, issues a write, or does nothing to them. -/
inductive ProfileStep (parseUserProfile : Text → Option (UserProfile γ)) (store : IfcStore γ)
    (phase : ProfilePhase γ) (store' : IfcStore γ) (phase' : ProfilePhase γ) : Prop where
  | quiet (profiles : store'.profiles = store.profiles) (writes : store'.writes = store.writes)
      (next : store'.nextSequence = store.nextSequence) (opened : phase'.opened = phase.opened)
      (pending : phase'.pending = phase.pending)
  | change (write : Option Text) (changes : phase.changes store.profiles)
      (describes : Describes parseUserProfile store'.profiles write)
      (writes : store'.writes = store.writes) (next : store'.nextSequence = store.nextSequence)
      (before : phase.opened = none) (opened : phase'.opened = some write)
      (pending : phase.pending = none) (pending' : phase'.pending = none)
  | draw (sequence : ℕ) (drawn : store.nextSequence ≤ sequence)
      (next : store'.nextSequence = sequence + 1) (profiles : store'.profiles = store.profiles)
      (writes : store'.writes = store.writes) (opened : phase'.opened = none)
      (before : phase.pending = none) (pending : phase'.pending = phase.opened.map (sequence, ·))
  | write (profiles : store'.profiles = store.profiles)
      (writes : store'.writes = store.writes ++ phase.pending.toList)
      (next : store'.nextSequence = store.nextSequence) (before : phase.opened = none)
      (opened : phase'.opened = none) (pending : phase'.pending = none)

section

variable {phase : ProfilePhase γ} (store : IfcStore γ) (skipped : ℕ)
  (hparsed : phase.Parsed parseUserProfile)
include hparsed

theorem IfcStore.access_step :
  ProfileStep parseUserProfile store phase (store.access skipped phase).1
    (store.access skipped phase).2
  := by
  cases phase with
  | noteSharedIds xml profile | stored count | invalid | removed removed =>
    exact .quiet rfl rfl rfl rfl rfl
  | insertProfile xml ifcs resolved =>
    obtain ⟨profile, hparse, rfl⟩ := hparsed
    exact .change (some xml) rfl ⟨profile, hparse, rfl⟩ rfl rfl rfl rfl rfl rfl
  | insertXml xml count =>
    rw [access]
    split
    · exact .quiet rfl rfl rfl rfl rfl
    · exact .quiet rfl rfl rfl rfl rfl
  | drawStore xml count =>
    exact .draw _ (Nat.le_add_right _ skipped) rfl rfl rfl rfl rfl rfl
  | saveAt xml count sequence => exact .write rfl rfl rfl rfl rfl rfl
  | removeProfile =>
    cases hprofiles : store.profiles with
    | none =>
      refine .quiet ?_ rfl rfl ?_ rfl
      · simp [access, hprofiles]
      · simp [access, hprofiles, ProfilePhase.opened]
    | some ifcs =>
      refine .change none ?_ rfl rfl rfl rfl ?_ rfl ?_
      · simp [ProfilePhase.changes, hprofiles]
      · simp [access, hprofiles, ProfilePhase.opened]
      · simp [access, ProfilePhase.pending]
  | removeSharedIds removed | removeXml removed sequence =>
    cases removed <;> exact .quiet rfl rfl rfl rfl rfl
  | enterXml removed =>
    rw [access]
    split
    · exact .quiet rfl rfl rfl rfl rfl
    · cases removed <;> exact .quiet rfl rfl rfl rfl rfl
  | drawRemoval removed occupied =>
    cases removed <;> cases occupied <;>
      exact .draw _ (Nat.le_add_right _ skipped) rfl rfl rfl rfl rfl rfl
  | removeAt removed sequence =>
    cases removed
    · exact .write rfl (append_nil _).symm rfl rfl rfl rfl
    · exact .write rfl rfl rfl rfl rfl rfl

theorem IfcStore.parsed_access :
  (store.access skipped phase).2.Parsed parseUserProfile
  := by
  cases phase with
  | noteSharedIds xml profile => exact ⟨profile, hparsed, rfl⟩
  | insertXml xml count | enterXml removed =>
    rw [access]
    split <;> trivial
  | drawRemoval removed occupied => cases occupied <;> trivial
  | _ => trivial

end

theorem ProfileCall.parsed_start (call : ProfileCall) :
  (call.start parseUserProfile).Parsed parseUserProfile
  := by
  cases call with
  | storeProfileXml xml =>
    rw [start]
    split
    · trivial
    · assumption
  | removeProfile => trivial

theorem ProfileCall.start_quiet (call : ProfileCall) :
  (call.start parseUserProfile).opened = none ∧ (call.start parseUserProfile).pending = none
  := by
  cases call with
  | storeProfileXml xml =>
    rw [start]
    split <;> exact ⟨rfl, rfl⟩
  | removeProfile => exact ⟨rfl, rfl⟩

end

/-! ### Numbers -/

section

variable {γ : Type} {store : IfcStore γ} {threads : List (ProfilePhase γ)}
  {parseUserProfile : Text → Option (UserProfile γ)}

def issued (store : IfcStore γ) (threads : List (ProfilePhase γ)) : List ProfileWrite :=
  store.writes ++ threads.filterMap (·.pending)

/-- Every write has its own number, below the next one. -/
structure Numbered (parseUserProfile : Text → Option (UserProfile γ)) (store : IfcStore γ)
    (threads : List (ProfilePhase γ)) : Prop where
  parsed : ∀ phase ∈ threads, phase.Parsed parseUserProfile
  below : ∀ write ∈ issued store threads, write.1 < store.nextSequence
  nodup : ((issued store threads).map (·.1)).Nodup

theorem issued_step {store' : IfcStore γ} {before after : List (ProfilePhase γ)}
    {phase phase' : ProfilePhase γ} (h : ProfileStep parseUserProfile store phase store' phase') :
  ∃ fresh : Option ProfileWrite,
    (issued store' (before ++ phase' :: after)).Perm
      (fresh.toList ++ issued store (before ++ phase :: after)) ∧
    store.nextSequence ≤ store'.nextSequence ∧
    (∀ write ∈ fresh, store.nextSequence ≤ write.1 ∧ write.1 < store'.nextSequence) ∧
    fresh.map (·.2) = if phase'.opened = none then phase.opened else none
  := by
  simp only [issued]
  cases h with
  | quiet profiles writes next opened pending =>
    rw [writes, opened]
    refine ⟨none, Issued.perm_of_same pending, next.ge, nofun, ?_⟩
    split
    · rename_i hnone
      rw [hnone]
      rfl
    · rfl
  | change write changes describes writes next before' opened pending pending' =>
    rw [writes]
    exact ⟨none, Issued.perm_of_same (pending'.trans pending.symm), next.ge, nofun,
      by simp [opened]⟩
  | draw sequence drawn next profiles writes opened before' pending =>
    rw [writes]
    refine ⟨phase'.pending, Issued.perm_of_drawn before', by omega, ?_, ?_⟩
    · intro write hwrite
      rw [pending] at hwrite
      obtain ⟨content, -, rfl⟩ := Option.map_eq_some_iff.mp hwrite
      exact ⟨drawn, by omega⟩
    · rw [pending, Option.map_map, if_pos opened]
      exact Option.map_id'
  | write profiles writes next before' opened pending =>
    rw [writes]
    exact ⟨none, Issued.perm_of_out pending, next.ge, nofun, by simp [opened, before']⟩

theorem Numbered.begin (h : Numbered parseUserProfile store threads) (call : ProfileCall) :
  Numbered parseUserProfile store (threads ++ [call.start parseUserProfile])
  := by
  have hissued : issued store (threads ++ [call.start parseUserProfile]) =
      issued store threads := Issued.writes_begin threads call.start_quiet.2
  refine ⟨?_, hissued ▸ h.below, hissued ▸ h.nodup⟩
  intro phase hmem
  rcases mem_append.mp hmem with hmem | hmem
  · exact h.parsed phase hmem
  · rw [mem_singleton.mp hmem]
    exact call.parsed_start

variable {before after : List (ProfilePhase γ)} {phase : ProfilePhase γ}

/-- An access keeps the numbers distinct. -/
theorem Numbered.access (h : Numbered parseUserProfile store (before ++ phase :: after))
    (skipped : ℕ) :
  Numbered parseUserProfile (store.access skipped phase).1
    (before ++ (store.access skipped phase).2 :: after)
  := by
  have hparsed := h.parsed phase (by simp)
  obtain ⟨fresh, hperm, hnext, hfresh, -⟩ :=
    @issued_step _ _ _ _ before after _ _ (store.access_step skipped hparsed)
  have hissued := Issued.Numbered.step ⟨h.below, h.nodup⟩ hperm hnext hfresh
  refine ⟨?_, hissued.below, hissued.nodup⟩
  intro other hmem
  simp only [mem_append, mem_cons] at hmem
  rcases hmem with hmem | rfl | hmem
  · exact h.parsed other (by simp [hmem])
  · exact store.parsed_access skipped hparsed
  · exact h.parsed other (by simp [hmem])

/-! ### The highest write -/

/-- A call that has changed the profile and not drawn its number is the only one, and what it will
write describes the profile; if there is none, the write with the highest number does. -/
structure Described (parseUserProfile : Text → Option (UserProfile γ)) (store : IfcStore γ)
    (threads : List (ProfilePhase γ)) : Prop extends Numbered parseUserProfile store threads where
  highest : threads.filterMap (·.opened) = [] → ∀ write ∈ issued store threads,
    (∀ other ∈ issued store threads, other.1 ≤ write.1) →
    Describes parseUserProfile store.profiles write.2
  unwritten : threads.filterMap (·.opened) = [] → issued store threads = [] → store.profiles = none
  opened : threads.filterMap (·.opened) = [] ∨ ∃ write, threads.filterMap (·.opened) = [write] ∧
    Describes parseUserProfile store.profiles write

theorem filterMap_opened (before after : List (ProfilePhase γ)) (phase : ProfilePhase γ) :
  (before ++ phase :: after).filterMap (·.opened) =
    before.filterMap (·.opened) ++ phase.opened.toList ++ after.filterMap (·.opened)
  := by
  cases hphase : phase.opened with
  | none | some => simp [hphase]

theorem Described.begin (h : Described parseUserProfile store threads) (call : ProfileCall) :
  Described parseUserProfile store (threads ++ [call.start parseUserProfile])
  := by
  have hissued : issued store (threads ++ [call.start parseUserProfile]) =
      issued store threads := Issued.writes_begin threads call.start_quiet.2
  have hopened : (threads ++ [call.start parseUserProfile]).filterMap (·.opened) =
      threads.filterMap (·.opened) := by
    simp [call.start_quiet.1]
  refine ⟨h.toNumbered.begin call, ?_, ?_, ?_⟩
  · rw [hissued, hopened]
    exact h.highest
  · rw [hissued, hopened]
    exact h.unwritten
  · rw [hopened]
    exact h.opened

theorem Described.congr {store' : IfcStore γ} {threads' : List (ProfilePhase γ)}
    (h : Described parseUserProfile store threads)
    (hnumbered : Numbered parseUserProfile store' threads')
    (hprofiles : store'.profiles = store.profiles)
    (hopened : threads'.filterMap (·.opened) = threads.filterMap (·.opened))
    (hissued : (issued store' threads').Perm (issued store threads)) :
  Described parseUserProfile store' threads'
  := by
  refine ⟨hnumbered, ?_, ?_, ?_⟩
  · intro hnone write hwrite hhighest
    rw [hprofiles]
    exact (Issued.highest_congr hissued).mpr (h.highest (hopened ▸ hnone)) write hwrite hhighest
  · intro hnone hempty
    rw [hprofiles]
    exact h.unwritten (hopened ▸ hnone) (hempty ▸ hissued).nil_eq.symm
  · rw [hopened, hprofiles]
    exact h.opened

theorem Described.access (h : Described parseUserProfile store (before ++ phase :: after))
    (skipped : ℕ) (hallowed : phase.changes store.profiles →
      (before ++ phase :: after).filterMap (·.opened) = []) :
  Described parseUserProfile (store.access skipped phase).1
    (before ++ (store.access skipped phase).2 :: after)
  := by
  have hstep := store.access_step skipped (h.parsed phase (by simp))
  have hnumbered := h.toNumbered.access skipped
  obtain ⟨fresh, hperm, -, hfresh, hdrawn⟩ := @issued_step _ _ _ _ before after _ _ hstep
  generalize (store.access skipped phase).1 = store' at *
  generalize (store.access skipped phase).2 = phase' at *
  -- Without a draw the call stays open or stays closed.
  have hstays : store'.profiles = store.profiles → phase'.opened = phase.opened →
      fresh.map (·.2) = none → Described parseUserProfile store' (before ++ phase' :: after) := by
    intro hprofiles hopened hnone
    rw [Option.map_eq_none_iff] at hnone
    subst hnone
    refine h.congr hnumbered hprofiles ?_ hperm
    rw [filterMap_opened, filterMap_opened, hopened]
  cases hstep with
  | quiet profiles writes next opened pending =>
    refine hstays profiles opened (hdrawn.trans ?_)
    rw [opened]
    split
    · assumption
    · rfl
  | change write changes describes writes next before' opened pending pending' =>
    have hnone := hallowed changes
    rw [filterMap_opened, before', Option.toList_none, append_nil, append_eq_nil_iff] at hnone
    have hopened : (before ++ phase' :: after).filterMap (·.opened) = [write] := by
      rw [filterMap_opened, hnone.1, hnone.2, opened]
      rfl
    refine ⟨hnumbered, ?_, ?_, .inr ⟨write, hopened, describes⟩⟩
    · rw [hopened]
      nofun
    · rw [hopened]
      nofun
  | draw sequence drawn next profiles writes opened before' pending =>
    cases hopen : phase.opened with
    | none => exact hstays profiles (opened.trans hopen.symm) (by simp [hdrawn, opened, hopen])
    | some content =>
    have hone : before.filterMap (·.opened) = [] ∧ after.filterMap (·.opened) = [] ∧
        Describes parseUserProfile store.profiles content := by
      have hlist := h.opened
      rw [filterMap_opened, hopen, Option.toList_some] at hlist
      rcases hlist with hnil | ⟨write, hsingle, hdescribes⟩
      · simp at hnil
      have hlength := congrArg List.length hsingle
      simp only [length_append, length_singleton] at hlength
      have hbefore : before.filterMap (·.opened) = [] := length_eq_zero_iff.mp (by omega)
      have hafter : after.filterMap (·.opened) = [] := length_eq_zero_iff.mp (by omega)
      rw [hbefore, hafter] at hsingle
      cases hsingle
      exact ⟨hbefore, hafter, hdescribes⟩
    obtain ⟨hbefore, hafter, hdescribes⟩ := hone
    rw [if_pos opened, hopen] at hdrawn
    obtain ⟨⟨number, _⟩, rfl, rfl⟩ := Option.map_eq_some_iff.mp hdrawn
    have hnone : (before ++ phase' :: after).filterMap (·.opened) = [] := by
      rw [filterMap_opened, hbefore, hafter, opened]
      rfl
    have hbelow : ∀ write ∈ issued store (before ++ phase :: after), write.1 < number :=
      fun write hold => Nat.lt_of_lt_of_le (h.below write hold) (hfresh _ rfl).1
    refine ⟨hnumbered, fun _ => ?_, fun _ hempty => ?_, .inl hnone⟩
    · rw [profiles]
      exact (Issued.highest_congr hperm).mpr ((Issued.highest_cons_iff hbelow).mpr hdescribes)
    · cases (hempty ▸ hperm).nil_eq
  | write profiles writes next before' opened pending =>
    exact hstays profiles (opened.trans before'.symm) (by simp [hdrawn, opened, before'])

end

/-! ### Runs -/

theorem issued_of_isDone {γ : Type} {store : IfcStore γ} {threads : List (ProfilePhase γ)}
    (h : ∀ phase ∈ threads, phase.isDone) :
  issued store threads = store.writes ∧ threads.filterMap (·.opened) = []
  := by
  have hquiet : ∀ phase ∈ threads, phase.pending = none ∧ phase.opened = none := by
    intro phase hmem
    have hdone := h phase hmem
    cases phase with
    | stored | invalid | removed => exact ⟨rfl, rfl⟩
    | _ => cases hdone
  have hpending : threads.filterMap (·.pending) = [] :=
    filterMap_eq_nil_iff.mpr fun phase hmem => (hquiet phase hmem).1
  refine ⟨by rw [issued, hpending, append_nil], ?_⟩
  exact filterMap_eq_nil_iff.mpr fun phase hmem => (hquiet phase hmem).2

/-- No two writes have one number; and if no call changes the profile between the change and the
draw of another one, then once all have ended the write with the highest number describes the
profile. -/
theorem highest_write_describes_profile {γ : Type}
    (parseUserProfile : Text → Option (UserProfile γ)) (sharedSets : IndexMap ℕ (List γ))
    (inputs : List (Threads.Input ProfileCall ℕ)) :
  let run := (profileThreads parseUserProfile).machine.run ({ sharedSets }, [])
  let undisturbed := ∀ before input, before ++ [input] <+: inputs → Undisturbed (run before) input
  let idle := ∀ phase ∈ (run inputs).2, phase.isDone
  ((run inputs).1.writes.map (·.1)).Nodup ∧
  (undisturbed → idle → ∀ write ∈ (run inputs).1.writes,
    (∀ other ∈ (run inputs).1.writes, other.1 ≤ write.1) →
    Describes parseUserProfile (run inputs).1.profiles write.2) ∧
  (undisturbed → idle → (run inputs).1.writes = [] → (run inputs).1.profiles = none)
  := by
  intro run undisturbed idle
  have hnew : Numbered parseUserProfile ({ sharedSets } : IfcStore γ) [] :=
    ⟨nofun, nofun, nodup_nil⟩
  have hnumbered : Numbered parseUserProfile (run inputs).1 (run inputs).2 :=
    @Threads.logged _ _ _ _ _ (profileThreads parseUserProfile)
      (fun _ => Numbered parseUserProfile) (fun _ _ => True) (fun _ _ _ call h => h.begin call)
      (fun _ _ _ _ _ skipped _ h => h.access skipped) _ hnew inputs (fun _ _ _ => trivial)
  have hdescribed : undisturbed → Described parseUserProfile (run inputs).1 (run inputs).2 := by
    refine @Threads.logged _ _ _ _ _ (profileThreads parseUserProfile)
      (fun _ => Described parseUserProfile) Undisturbed (fun _ _ _ call h => h.begin call)
      (fun _ _ _ _ _ skipped hallowed h => h.access skipped ?_) _ ?_ inputs
    · intro hchanges
      exact hallowed (by simpa using hchanges)
    · exact ⟨hnew, nofun, fun _ _ => rfl, .inl rfl⟩
  refine ⟨?_, ?_, ?_⟩
  · have hnodup := hnumbered.nodup
    rw [issued, map_append] at hnodup
    exact (nodup_append.mp hnodup).1
  · intro hundisturbed hidle
    obtain ⟨hissued, hopened⟩ := issued_of_isDone hidle
    have h := (hdescribed hundisturbed).highest hopened
    rwa [hissued] at h
  · intro hundisturbed hidle
    obtain ⟨hissued, hopened⟩ := issued_of_isDone hidle
    have h := (hdescribed hundisturbed).unwritten hopened
    rwa [hissued] at h

/-- Two stores change the profile one after the other and draw their numbers in the other order. -/
def crossedStores : List (Threads.Input ProfileCall ℕ) :=
  [.begin (.storeProfileXml "first".toList), .begin (.storeProfileXml "second".toList),
    .run 0 0, .run 0 0, .run 1 0, .run 1 0,
    .run 1 0, .run 1 0, .run 1 0,
    .run 0 0, .run 0 0, .run 0 0]

/-- Both have ended: the profile is the second one, and the highest write has the first. -/
theorem crossedStores_write_first :
  let parse (xml : Text) : Option (UserProfile Text) := some ⟨[xml], []⟩
  let state := (profileThreads parse).machine.run ({}, []) crossedStores
  (∀ phase ∈ state.2, phase.isDone) ∧ state.1.profiles = some ["second".toList] ∧
    state.1.writes = [(0, some "second".toList), (1, some "first".toList)]
  := by
  decide +kernel

end Siphon.Ifc
