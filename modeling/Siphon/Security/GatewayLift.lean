import Siphon.Gateway.ViewLookup
import Siphon.Library.Threads
import Siphon.Security.SignalSteps

/-!
# Bans and the gateway view

A publish of the gateway view swaps the snapshot in and then lifts what is held against the sources
it newly admits, while signals of abuse read whether a source is trusted, count, insert a ban and
tell the kernel in steps of their own.
-/

namespace Siphon.Security

open List

open Gateway

/-- The sources of bans that a snapshot admits, each with the group that does. -/
def liftedBans (admitted : GatewaySnapshot) (bans : IndexMap IpAddr BanEntry) :
    List (IpAddr × Text) :=
  bans.entries.filterMap fun entry =>
    (admitted.groupOf entry.1).map fun group => (entry.1, group)

/-- Lift bans and failures of every source inside the added ranges, with what the kernel is told. -/
def AutoBanStore.liftForGateways (store : AutoBanStore) (added : List AdmittedRange) :
    AutoBanStore × List Command :=
  if added = [] then
    (store, [])
  else
    let admitted := GatewaySnapshot.build added
    let failing := (store.failures.entries.map Prod.fst).filter admitted.contains
    let lifted := liftedBans admitted store.bans
    ({ failures := store.failures.removeAll failing
       bans := store.bans.removeAll (lifted.map Prod.fst) },
      lifted.map fun entry => .unban entry.1)

structure GuardedBans where
  snapshot : GatewaySnapshot
  bans : Bans
  /-- A publish holds the lock of the listeners. -/
  publishing : Bool

def GuardedBans.new : GuardedBans :=
  ⟨{}, .new, false⟩

/-- A signal, a publish of the view, or the kernel dropping an element whose time is up. -/
inductive GuardCall where
  | signal (signal : AbuseSignal)
  | publish (sources : List AdmittedRange)
  | expire (source : IpAddr)

inductive GuardPhase where
  | signal (signal : AbuseSignal) (stage : SignalStage)
  /-- About to swap the snapshot. -/
  | swapping (sources : List AdmittedRange)
  /-- About to lift what is held against the added ranges. -/
  | lifting (added : List AdmittedRange)
  | expiring (source : IpAddr)
  | done

def GuardCall.start : GuardCall → GuardPhase
  | .signal received => .signal received .checking
  | .publish sources => .swapping sources
  | .expire source => .expiring source

def GuardPhase.finished : GuardPhase → Bool
  | .signal _ .done | .done => true
  | _ => false

/-- The next step, with the sources that `trusted_cidrs` holds and gateway trust on. -/
def GuardedBans.access (policy : BanPolicy) (configured : IpAddr → Bool) (state : GuardedBans)
    (_ : Unit) : GuardPhase → GuardedBans × GuardPhase × List Empty
  | .signal signal stage =>
    let (bans, stage) := signal.access policy
      (fun source => configured source || state.snapshot.contains source) state.bans stage
    ({ state with bans := bans }, .signal signal stage, [])
  | .swapping sources =>
    if state.publishing then
      (state, .swapping sources, [])
    else
      match publish state.snapshot sources with
      | (_, []) => (state, .done, [])
      | (next, (_, added) :: _) =>
        ({ state with snapshot := next, publishing := true }, .lifting added, [])
  | .lifting added =>
    let (store, commands) := state.bans.store.liftForGateways added
    -- the kernel needs no time for what it is told here
    let bans := ⟨store, commands.foldl (KernelSet.apply 0) state.bans.kernel⟩
    ({ state with bans := bans, publishing := false }, .done, [])
  | .expiring source =>
    let bans := { state.bans with kernel := state.bans.kernel.shiftRemove source }
    ({ state with bans := bans }, .done, [])
  | .done => (state, .done, [])

def guardThreads (policy : BanPolicy) (configured : IpAddr → Bool) :
    Threads GuardedBans GuardCall GuardPhase Unit Empty where
  start := GuardCall.start
  access := GuardedBans.access policy configured

/-! ### No gateway is left banned -/

/-- The source holds no ban, in the store or in the kernel. -/
def GuardedBans.Clear (state : GuardedBans) (source : IpAddr) : Prop :=
  state.bans.store.bans.get? source = none ∧ state.bans.kernel.get? source = none

/-- A lifting that covers the source is to come. -/
def Pending (threads : List GuardPhase) (source : IpAddr) : Prop :=
  ∃ added, .lifting added ∈ threads ∧ (GatewaySnapshot.build added).contains source = true

/-- A source that the view admits holds no ban, or a lifting that covers it is to come. -/
def Guarded (state : GuardedBans) (threads : List GuardPhase) : Prop :=
  ∀ source, state.snapshot.contains source = true →
    state.Clear source ∨ Pending threads source

/-- The step of a thread beside others comes in time: a ban is inserted, or the kernel told, only
while the view does not admit the source or a lifting that covers it is to come, and a lifting finds
the ban of every source that it covers and the kernel drops, or leaves it to a later one. -/
def Timely (state : GuardedBans) (phase : GuardPhase) (others : List GuardPhase) : Prop :=
  match phase with
  | .signal signal .inserting | .signal signal (.commanding _ _) =>
    state.snapshot.contains signal.source = true → Pending others signal.source
  | .lifting added => ∀ source, state.snapshot.contains source = true →
      (GatewaySnapshot.build added).contains source = true →
      state.bans.kernel.get? source ≠ none →
      state.bans.store.bans.get? source ≠ none ∨ Pending others source
  | _ => True

variable {policy : BanPolicy} {configured : IpAddr → Bool} {state : GuardedBans}
    {before after : List GuardPhase} {phase : GuardPhase} {source : IpAddr}

theorem pending_middle :
  Pending (before ++ phase :: after) source ↔
    (∃ added, phase = .lifting added ∧ (GatewaySnapshot.build added).contains source = true) ∨
      Pending (before ++ after) source
  := by
  constructor
  · rintro ⟨added, hadded, hcontains⟩
    rw [mem_append, mem_cons] at hadded
    obtain hmem | rfl | hmem := hadded
    · exact .inr ⟨added, mem_append_left _ hmem, hcontains⟩
    · exact .inl ⟨added, rfl, hcontains⟩
    · exact .inr ⟨added, mem_append_right _ hmem, hcontains⟩
  · rintro (⟨added, rfl, hcontains⟩ | ⟨added, hmem, hcontains⟩)
    · exact ⟨added, by simp, hcontains⟩
    refine ⟨added, ?_, hcontains⟩
    rw [mem_append] at hmem
    rw [mem_append, mem_cons]
    tauto

theorem pending_middle_of_ne (h : ∀ added, phase ≠ .lifting added) :
  Pending (before ++ phase :: after) source ↔ Pending (before ++ after) source
  := by
  rw [pending_middle]
  refine or_iff_right ?_
  rintro ⟨added, hphase, -⟩
  exact h added hphase

theorem foldl_unban (kernel : KernelSet) (sources : List IpAddr) :
  (sources.map Command.unban).foldl (KernelSet.apply 0) kernel = kernel.removeAll sources
  := by
  rw [foldl_map]
  rfl

theorem mem_liftedBans {admitted : GatewaySnapshot} {bans : IndexMap IpAddr BanEntry} :
  source ∈ (liftedBans admitted bans).map Prod.fst
    ↔ admitted.contains source = true ∧ bans.get? source ≠ none
  := by
  rw [GatewaySnapshot.contains, Option.isSome_iff_exists, Option.ne_none_iff_exists', liftedBans]
  simp only [mem_map, mem_filterMap, Option.map_eq_some_iff, IndexMap.get?_eq_some_iff]
  constructor
  · rintro ⟨_, ⟨⟨_, entry⟩, hmem, group, hgroup, rfl⟩, rfl⟩
    exact ⟨⟨group, hgroup⟩, entry, hmem⟩
  · rintro ⟨⟨group, hgroup⟩, entry, hmem⟩
    exact ⟨(source, group), ⟨(source, entry), hmem, group, hgroup, rfl⟩, rfl⟩

theorem get?_liftForGateways (store : AutoBanStore) (kernel : KernelSet)
    (added : List AdmittedRange) (source : IpAddr) :
  (store.liftForGateways added).1.bans.get? source =
      (if (GatewaySnapshot.build added).contains source then none
        else store.bans.get? source) ∧
    IndexMap.get? ((store.liftForGateways added).2.foldl (KernelSet.apply 0) kernel) source =
      if (GatewaySnapshot.build added).contains source ∧ store.bans.get? source ≠ none then none
      else kernel.get? source
  := by
  rw [AutoBanStore.liftForGateways]
  split
  · rename_i hnil
    have hcontains : (GatewaySnapshot.build added).contains source = false := by
      rw [hnil, Bool.eq_false_iff, ne_eq, contains_iff_source]
      simp
    simp [hcontains]
  generalize GatewaySnapshot.build added = admitted
  have hcommands : ((liftedBans admitted store.bans).map fun entry => Command.unban entry.1) =
      ((liftedBans admitted store.bans).map Prod.fst).map Command.unban := by
    rw [map_map]
    rfl
  simp only [hcommands, foldl_unban, IndexMap.get?_removeAll, mem_liftedBans]
  refine ⟨?_, trivial⟩
  by_cases hcontains : admitted.contains source = true
  · by_cases hrow : store.bans.get? source = none
    · simp [hrow]
    · simp [hcontains, hrow]
  · simp [hcontains]

/-- The view is always the snapshot of some ranges. -/
def Built (state : GuardedBans) : Prop :=
  ∃ sources, state.snapshot = .build sources

theorem built_access (h : Built state) :
  Built (state.access policy configured () phase).1
  := by
  cases phase with
  | swapping sources =>
    simp only [GuardedBans.access]
    split
    · exact h
    generalize hpublish : publish state.snapshot sources = published
    rw [publish] at hpublish
    split at hpublish
    · cases hpublish
      exact h
    · cases hpublish
      exact ⟨sources, rfl⟩
  | _ => exact h

theorem guarded_of_subset {state' : GuardedBans} {phase' : GuardPhase}
    (h : Guarded state (before ++ phase :: after)) (hsnapshot : state'.snapshot = state.snapshot)
    (hphase : ∀ added, phase ≠ .lifting added)
    (hclear : ∀ source, state.Clear source → state'.Clear source) :
  Guarded state' (before ++ phase' :: after)
  := by
  intro source hcontains
  rw [hsnapshot] at hcontains
  obtain hclear' | hpending := h source hcontains
  · exact .inl (hclear source hclear')
  · rw [pending_middle_of_ne hphase] at hpending
    exact .inr (pending_middle.mpr (.inr hpending))

variable {signal : AbuseSignal} {trusted : IpAddr → Bool}

theorem clear_signal {stage : SignalStage} (h : state.Clear source)
    (hstage : stage ≠ .inserting ∧ (∀ ttl newlyBanned, stage ≠ .commanding ttl newlyBanned) ∨
      source ≠ signal.source) :
  GuardedBans.Clear
    { state with bans := (signal.access policy trusted state.bans stage).1 } source
  := by
  constructor
  · rw [← Option.not_isSome_iff_eq_none]
    intro hsome
    obtain hbefore | ⟨hinserting, hsource⟩ := isSome_bans_access hsome
    · rw [h.1] at hbefore
      cases hbefore
    · obtain ⟨hnot, -⟩ | hnot := hstage
      · exact hnot hinserting
      · exact hnot hsource
  · obtain hsame | ⟨⟨ttl, newlyBanned, hcommanding⟩, hsource⟩ :=
      @get?_kernel_access policy trusted signal state.bans stage source
    · exact hsame.trans h.2
    · obtain ⟨-, hnot⟩ | hnot := hstage
      · exact absurd hcommanding (hnot ttl newlyBanned)
      · exact absurd hsource hnot

section

variable {stage stage' : SignalStage} (h : Guarded state (before ++ .signal signal stage :: after))
include h

theorem guarded_raise_iff (hraised : ¬ GuardedBans.Clear
      { state with bans := (signal.access policy trusted state.bans stage).1 } signal.source) :
  Guarded { state with bans := (signal.access policy trusted state.bans stage).1 }
      (before ++ .signal signal stage' :: after)
    ↔ (state.snapshot.contains signal.source = true → Pending (before ++ after) signal.source)
  := by
  constructor
  · intro hguarded hcontains
    obtain hclear | hpending := hguarded signal.source hcontains
    · exact absurd hclear hraised
    · rwa [pending_middle_of_ne (by simp)] at hpending
  · intro htimely source hcontains
    by_cases hsource : source = signal.source
    · rw [pending_middle_of_ne (by simp)]
      rw [hsource] at hcontains ⊢
      exact .inr (htimely hcontains)
    · obtain hclear | hpending := h source hcontains
      · exact .inl (clear_signal hclear (.inr hsource))
      · rw [pending_middle_of_ne (by simp)] at hpending ⊢
        exact .inr hpending

theorem guarded_signal_iff :
  Guarded { state with bans := (signal.access policy trusted state.bans stage).1 }
      (before ++ .signal signal stage' :: after)
    ↔ Timely state (.signal signal stage) (before ++ after)
  := by
  cases stage with
  | inserting =>
    refine guarded_raise_iff h fun hclear => ?_
    have hraised := @isSome_bans_inserting policy trusted signal state.bans
    rw [hclear.1] at hraised
    cases hraised
  | commanding ttl newlyBanned =>
    refine guarded_raise_iff h fun hclear => ?_
    have hraised := @isSome_kernel_commanding policy trusted signal state.bans ttl newlyBanned
    rw [hclear.2] at hraised
    cases hraised
  | checking | rechecking | extending | reaping | counting | clearing | closing | done =>
    refine iff_of_true (guarded_of_subset h rfl (by simp) fun source hclear => ?_) trivial
    exact clear_signal hclear (.inl ⟨by simp, by simp⟩)

end

theorem guarded_lifting_iff {added : List AdmittedRange}
    (h : Guarded state (before ++ .lifting added :: after)) :
  Guarded (state.access policy configured () (.lifting added)).1 (before ++ .done :: after)
    ↔ Timely state (.lifting added) (before ++ after)
  := by
  have hlift := get?_liftForGateways state.bans.store state.bans.kernel added
  constructor
  · intro hguarded source hcontains hcovered hkernel
    obtain hclear | hpending := hguarded source hcontains
    · apply Or.inl
      intro hrow
      have hnone := hclear.2
      simp only [GuardedBans.access, (hlift source).2, hrow] at hnone
      simp at hnone
      exact hkernel hnone
    · rw [pending_middle_of_ne (by simp)] at hpending
      exact .inr hpending
  · intro htimely source hcontains
    rw [pending_middle_of_ne (by simp)]
    by_cases hpending : Pending (before ++ after) source
    · exact .inr hpending
    apply Or.inl
    simp only [GuardedBans.Clear, GuardedBans.access, (hlift source).1, (hlift source).2]
    obtain hclear | hpending' := h source hcontains
    · simp [hclear.1, hclear.2]
    rw [pending_middle, or_iff_left hpending] at hpending'
    obtain ⟨_, ⟨⟩, hcovered⟩ := hpending'
    by_cases hkernel : state.bans.kernel.get? source = none
    · simp [hcovered, hkernel]
    · have hrow := (htimely source hcontains hcovered hkernel).resolve_right hpending
      simp [hcovered, hrow]

/-- A step keeps every source guarded exactly when it comes in time. -/
theorem guarded_access_iff (hbuilt : Built state) (h : Guarded state (before ++ phase :: after)) :
  Guarded (state.access policy configured () phase).1
      (before ++ (state.access policy configured () phase).2.1 :: after)
    ↔ Timely state phase (before ++ after)
  := by
  cases phase with
  | signal signal stage =>
    simp only [GuardedBans.access]
    exact guarded_signal_iff h
  | swapping sources =>
    refine iff_of_true ?_ trivial
    simp only [GuardedBans.access]
    split
    · exact h
    split
    · exact guarded_of_subset h rfl (by simp) (fun _ h => h)
    rename_i next told added rest hpublish
    obtain ⟨earlier, hearlier⟩ := hbuilt
    intro source hcontains
    by_cases hold : state.snapshot.contains source = true
    · obtain hclear | hpending := h source hold
      · exact .inl hclear
      · rw [pending_middle_of_ne (by simp)] at hpending
        exact .inr (pending_middle.mpr (.inr hpending))
    -- the listeners are told of every source that is newly admitted
    have htells := @publish_tells source earlier sources
    rw [← hearlier, hpublish] at htells
    obtain ⟨entry, hentry, -, range, hrange, haddress⟩ :=
      htells hcontains (by simpa using hold)
    have hrest : rest = [] := by
      rw [publish] at hpublish
      split at hpublish <;> cases hpublish
      rfl
    rw [hrest, mem_singleton] at hentry
    rw [hentry] at hrange
    refine .inr (pending_middle.mpr (.inl ⟨added, rfl, ?_⟩))
    exact contains_iff_source.mpr ⟨range, hrange, haddress⟩
  | lifting added => exact guarded_lifting_iff h
  | expiring expired =>
    refine iff_of_true (guarded_of_subset h rfl (by simp) ?_) trivial
    intro source hclear
    refine ⟨hclear.1, ?_⟩
    simp only [GuardedBans.access, IndexMap.get?_shiftRemove]
    split
    · rfl
    · exact hclear.2
  | done => exact iff_of_true h trivial

/-- Just the timely runs guard the gateways. -/
theorem guarded_run_iff (policy : BanPolicy) (configured : IpAddr → Bool)
    (inputs : List (Threads.Input GuardCall Unit)) :
  (∀ before, before <+: inputs →
      Guarded ((guardThreads policy configured).machine.run (.new, []) before).1
        ((guardThreads policy configured).machine.run (.new, []) before).2)
    ↔ ∀ before index input, before ++ [.run index input] <+: inputs →
      ∀ phase, ((guardThreads policy configured).machine.run (.new, []) before).2[index]?
          = some phase →
        Timely ((guardThreads policy configured).machine.run (.new, []) before).1 phase
          (((guardThreads policy configured).machine.run (.new, []) before).2.eraseIdx index)
  := by
  refine @Threads.run_iff _ _ _ _ _ (guardThreads policy configured) Built Guarded
    (fun state _ phase others => Timely state phase others) ?_ ?_ ?_ _ ?_ ?_ inputs
  · intro state threads call
    have hnot : ∀ added, (guardThreads policy configured).start call ≠ .lifting added := by
      intro added
      cases call <;> simp [guardThreads, GuardCall.start]
    have hpending : ∀ source, Pending (threads ++ [(guardThreads policy configured).start call])
        source ↔ Pending threads source := by
      intro source
      rw [pending_middle_of_ne hnot, append_nil]
    simp only [Guarded, hpending]
  · intro state input phase hbuilt
    exact built_access hbuilt
  · intro state before phase after input hbuilt hguarded
    exact guarded_access_iff hbuilt hguarded
  · refine ⟨[], ?_⟩
    simp [GuardedBans.new, GatewaySnapshot.build, normaliseBy, Intervals.absorb]
  · intro source hcontains
    exact .inl ⟨rfl, rfl⟩

/-- For every interleaving of signals and publishes: a source that the view admits holds no ban, or
a lifting that covers it is to come, exactly as long as every step comes in time; and in a run whose
steps do, once every step has finished, no source that the view admits holds a ban entry or a ban
in the kernel. -/
theorem gateway_not_left_banned (policy : BanPolicy) (configured : IpAddr → Bool)
    (inputs : List (Threads.Input GuardCall Unit)) :
  let state := (guardThreads policy configured).machine.run (.new, [])
  let timely := ∀ before index input, before ++ [.run index input] <+: inputs →
    ∀ phase, (state before).2[index]? = some phase →
      Timely (state before).1 phase ((state before).2.eraseIdx index)
  ((∀ before, before <+: inputs → Guarded (state before).1 (state before).2) ↔ timely) ∧
  (timely → (∀ phase ∈ (state inputs).2, phase.finished = true) →
    ∀ source, (state inputs).1.snapshot.contains source = true →
      (state inputs).1.bans.store.bans.get? source = none ∧
      (state inputs).1.bans.kernel.get? source = none)
  := by
  intro state timely
  refine ⟨guarded_run_iff policy configured inputs, ?_⟩
  intro htimely hfinished source hcontains
  have hguarded := (guarded_run_iff policy configured inputs).mpr htimely inputs prefix_rfl
  obtain hclear | ⟨added, hlifting, -⟩ := hguarded source hcontains
  · exact hclear
  · have hdone := hfinished _ hlifting
    cases hdone

/-- A publish that swaps and lifts between the trust check and the insert of a signal: the source is
a gateway and holds a ban in the store and in the kernel, with every step finished. -/
theorem published_between_left_banned :
  let carrier : AdmittedRange := ⟨.v4 ⟨0xC0000201#32, 32, le_rfl⟩, "carrier".toList⟩
  let inputs : List (Threads.Input GuardCall Unit) :=
    [.begin (.signal ⟨.v4 0xC0000201#32, 1, 0⟩), .begin (.publish [carrier]), .run 0 (), .run 0 (),
      .run 1 (), .run 1 (), .run 0 (), .run 0 (), .run 0 (), .run 0 (), .run 0 (), .run 0 ()]
  let state := (guardThreads (.new 1 600 60 600) fun _ => false).machine.run (.new, []) inputs
  (∀ phase ∈ state.2, phase.finished = true) ∧
    state.1.snapshot.contains (.v4 0xC0000201#32) = true ∧
    (state.1.bans.store.bans.get? (.v4 0xC0000201#32)).isSome = true ∧
    (state.1.bans.kernel.get? (.v4 0xC0000201#32)).isSome = true
  := by
  decide +kernel

end Siphon.Security
