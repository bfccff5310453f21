import Siphon.B2bua.CancelMoves

/-!
# Deferred CANCELs

In every interleaving of the calls on the kept branches the count and the CANCELs that wait agree
once no call is under way, and a CANCEL is handed out at most once for each time its branch is kept,
after a provisional and not after a final response.
-/

namespace Siphon.B2bua

open List CancelPhase

open CancelStore

/-! ### The log -/

def sinceKept (branch : Text) (log : List CancelEvent) : List CancelEvent :=
  (log.reverse.takeWhile (· ≠ .kept branch)).reverse

@[simp] theorem sinceKept_append_kept (branch : Text) (log : List CancelEvent) :
  sinceKept branch (log ++ [.kept branch]) = []
  := by
  simp [sinceKept]

variable {branch : Text} {log : List CancelEvent} {out : List CancelEvent}

theorem sinceKept_append (h : .kept branch ∉ out) :
  sinceKept branch (log ++ out) = sinceKept branch log ++ out
  := by
  have hout : ∀ event ∈ out.reverse, decide (event ≠ .kept branch) = true := by
    intro event hevent
    apply decide_eq_true
    rintro rfl
    exact h (mem_reverse.mp hevent)
  rw [sinceKept, reverse_append, takeWhile_append_of_pos hout, reverse_append,
    reverse_reverse, sinceKept]

/-- A provisional was recorded from the start, or has come since. -/
def Heard (registry : LegRegistry) (log : List CancelEvent) (branch : Text) : Prop :=
  registry.provisionalReceived branch ∨ .provisional branch ∈ log

variable {registry : LegRegistry}

theorem Heard.append (h : Heard registry log branch) (out : List CancelEvent) :
  Heard registry (log ++ out) branch :=
  h.imp id (mem_append_left out)

/-! ### What holds in every run -/

structure Sound (registry : LegRegistry) (log : List CancelEvent) (store : CancelStore)
    (threads : List CancelPhase) : Prop where
  account : store.surplus + (threads.map debt).sum = 0
  held : ∀ branch, threads.countP (holds branch) = store.held.count branch
  held_le : ∀ branch, store.held.count branch ≤ 1
  claims : ∀ phase ∈ threads, ∀ branch, phase.claims branch → store.awaits branch
  originated : ∀ phase ∈ threads, store.Missed phase
  kept : ∀ branch, store.awaits branch →
    .kept branch ∈ log ∧ ∀ event ∈ sinceKept branch log, event.settles branch = false
  ended : ∀ branch, .kept branch ∈ log → store.awaits branch = false →
    ∃ event ∈ sinceKept branch log, event.settles branch ∨ event = .timedOut branch
  brings : ∀ phase ∈ threads, ∀ branch, phase.brings branch → .provisional branch ∈ log
  received : ∀ branch, store.registry.provisionalReceived branch → Heard registry log branch
  marked : ∀ branch, store.marked branch → Heard registry log branch
  marks : ∀ branch, .mark branch ∈ threads → Heard registry log branch

namespace Sound

variable {registry : LegRegistry} {log out : List CancelEvent} {store next : CancelStore}
  {phase phase' : CancelPhase} {before after threads : List CancelPhase}

theorem new (registry : LegRegistry) :
  Sound registry [] { registry := registry } []
  := by
  constructor <;>
    simp [surplus, waiting, awaits, CancelStore.marked, kept?, Heard, IndexMap.count,
      IndexMap.empty, IndexMap.get?]

theorem begin (h : Sound registry log store threads) (call : CancelCall) :
  Sound registry log store (threads ++ [call.start])
  := by
  have hmem : ∀ phase ∈ threads ++ [call.start], phase ∈ threads ∨ phase = call.start := by simp
  refine ⟨?_, ?_, h.held_le, ?_, ?_, h.kept, h.ended, ?_, h.received, h.marked, ?_⟩
  · have hdebt : call.start.debt = 0 := by cases call <;> rfl
    simpa [hdebt] using h.account
  · intro branch
    have hholds : call.start.holds branch = false := by cases call <;> rfl
    simpa [hholds] using h.held branch
  · intro phase hphase branch hclaims
    rcases hmem phase hphase with hphase | rfl
    · exact h.claims phase hphase branch hclaims
    · cases call <;> cases hclaims
  · intro phase hphase branch hreads
    rcases hmem phase hphase with hphase | rfl
    · exact h.originated phase hphase branch hreads
    · cases call <;> cases hreads
  · intro phase hphase branch hbrings
    rcases hmem phase hphase with hphase | rfl
    · exact h.brings phase hphase branch hbrings
    · cases call <;> cases hbrings
  · intro branch hmark
    rcases hmem _ hmark with hmark | hmark
    · exact h.marks branch hmark
    · cases call <;> cases hmark

section

variable (h : Sound registry log store (before ++ phase :: after))
  (hmove : Move store phase next phase' out)
include h hmove

/-- A branch another call holds to claim it goes on waiting. -/
theorem awaits_of_other {other : CancelPhase} (hother : other ∈ before ++ after)
    (hclaims : other.claims branch) :
  next.awaits branch
  := by
  have hholds : other.holds branch := by
    rw [holds_of_claims hclaims]
    exact decide_eq_true rfl
  have hheld := h.held branch
  have hle := h.held_le branch
  have hpos : 0 < (before ++ after).countP (holds branch) :=
    countP_pos_iff.mpr ⟨other, hother, hholds⟩
  simp only [countP_append, countP_cons] at hheld hpos
  have hfree : phase.holds branch = false := by
    by_contra hne
    rw [Bool.not_eq_false] at hne
    rw [if_pos hne] at hheld
    omega
  apply hmove.awaits_of_held (count_pos_iff.mp (by omega)) hfree
  exact h.claims other (Threads.mem_middle.mpr (.inr hother)) branch hclaims

theorem kept_of_awaits (hawaits : next.awaits branch) :
  .kept branch ∈ log ++ out ∧
    ∀ event ∈ sinceKept branch (log ++ out), event.settles branch = false
  := by
  rcases hmove.awaits_cases hawaits with rfl | ⟨hawaits, hout⟩
  · simp
  obtain ⟨hkept, hsince⟩ := h.kept branch hawaits
  have hnot : .kept branch ∉ out := fun hkept => (hout _ hkept).1 rfl
  rw [sinceKept_append hnot]
  refine ⟨mem_append_left out hkept, forall_mem_append.mpr ⟨hsince, ?_⟩⟩
  exact fun event hevent => (hout event hevent).2.1

theorem exists_end (hkept : .kept branch ∈ log ++ out) (hafter : next.awaits branch = false) :
  ∃ event ∈ sinceKept branch (log ++ out), event.settles branch ∨ event = .timedOut branch
  := by
  have hnot : .kept branch ∉ out := by
    intro hkept
    rw [hmove.awaits_of_kept hkept] at hafter
    cases hafter
  rw [mem_append, or_iff_left hnot] at hkept
  rw [sinceKept_append hnot]
  cases hbefore : store.awaits branch with
  | false =>
    obtain ⟨event, hevent, hends⟩ := h.ended branch hkept hbefore
    exact ⟨event, mem_append_left out hevent, hends⟩
  | true =>
    obtain ⟨event, hevent, hends⟩ := hmove.ended_cases hbefore hafter
    exact ⟨event, mem_append_right _ hevent, hends⟩

/-- A move keeps all of it. -/
theorem move :
  Sound registry (log ++ out) next (before ++ phase' :: after)
  := by
  have hphase : phase ∈ before ++ phase :: after := by simp
  have hclaims := h.claims phase hphase
  have horiginated := h.originated phase hphase
  have hholds : ∀ branch, phase.holds branch → branch ∈ store.held := by
    intro branch hholds
    apply count_pos_iff.mp
    rw [← h.held branch]
    exact countP_pos_iff.mpr ⟨phase, hphase, hholds⟩
  refine ⟨?_, ?_, fun branch => hmove.count_held_le (h.held_le branch), ?_, ?_,
    fun _ => h.kept_of_awaits hmove, fun _ => h.exists_end hmove, ?_, ?_, ?_, ?_⟩
  · have hbalance := hmove.balance hclaims
    have haccount := h.account
    simp only [map_append, map_cons, sum_append, sum_cons] at haccount ⊢
    omega
  · intro branch
    have hcount := hmove.count_held hholds branch
    have hheld := h.held branch
    cases hb : phase.holds branch <;> cases hb' : phase'.holds branch <;>
      simp [hb, hb'] at hcount hheld ⊢ <;> omega
  · intro other hother branch hnext
    rcases Threads.mem_middle.mp hother with rfl | hother
    · exact hmove.awaits_of_claims (hclaims branch) hnext
    · exact h.awaits_of_other hmove hother hnext
  · intro other hother branch hreads
    rw [hmove.byBranch_none]
    rcases Threads.mem_middle.mp hother with rfl | hother
    · exact (hmove.readsOriginated_cases hreads).elim (horiginated branch) id
    · exact h.originated other (Threads.mem_middle.mpr (.inr hother)) branch hreads
  · intro other hother branch hbrings
    rcases Threads.mem_middle.mp hother with rfl | hother
    · rcases hmove.provisional_of_brings hbrings with hbrings | hout
      · exact mem_append_left out (h.brings phase hphase branch hbrings)
      · exact mem_append_right log hout
    · exact mem_append_left out
        (h.brings other (Threads.mem_middle.mpr (.inr hother)) branch hbrings)
  · intro branch hreceived
    rcases hmove.provisionalReceived_cases hreceived with hreceived | ⟨-, rfl | rfl⟩
    · exact (h.received branch hreceived).append out
    · exact .inr (mem_append_left out (h.brings _ hphase branch (decide_eq_true rfl)))
    · exact .inr (by simp)
  · intro branch hmarked
    rcases hmove.marked_cases hmarked with hmarked | rfl
    · exact (h.marked branch hmarked).append out
    · exact (h.marks branch hphase).append out
  · intro branch hmark
    rcases Threads.mem_middle.mp hmark with heq | hmark
    · rcases hmove.mark_cases horiginated heq.symm with rfl | hreceived
      · exact (h.marks branch hphase).append out
      · exact (h.received branch hreceived).append out
    · exact (h.marks branch (Threads.mem_middle.mpr (.inr hmark))).append out

theorem released {leg : Option Leg} (hreleased : .released branch leg ∈ out) :
  store.awaits branch ∧ Heard registry log branch
  := by
  have hphase : phase ∈ before ++ phase :: after := by simp
  obtain ⟨hawaits, hsource⟩ := hmove.released_cases (h.claims phase hphase)
    (h.originated phase hphase) hreleased
  refine ⟨hawaits, ?_⟩
  rcases hsource with hbrings | hmarked | hreceived
  · exact .inr (h.brings phase hphase branch hbrings)
  · exact h.marked branch hmarked
  · exact h.received branch hreceived

end

theorem awaits_of_zero (h : Sound registry log store threads)
    (hraises : ∀ phase ∈ threads, phase.raises = false) (hzero : store.deferredCancels = 0)
    (branch : Text) :
  store.awaits branch = false
  := by
  have hdebt : (threads.map debt).sum ≤ 0 := by
    clear h
    induction threads with
    | nil => simp
    | cons phase threads ih =>
    have hrest := ih fun other hother => hraises other (mem_cons_of_mem _ hother)
    have hle : phase.debt ≤ 0 := by
      cases phase <;> simp_all [raises, debt]
    rw [map_cons, sum_cons]
    omega
  have haccount := h.account
  rw [surplus, hzero] at haccount
  by_contra hne
  rw [Bool.not_eq_false, awaits, kept?] at hne
  have hpos : 0 < store.waiting := IndexMap.count_pos hne
  omega

end Sound

/-! ### What takes an undisturbed count -/

structure Prompt (log : List CancelEvent) (store : CancelStore) (threads : List CancelPhase) :
    Prop where
  timed : ∀ branch, store.awaits branch → .timedOut branch ∉ sinceKept branch log
  brought : ∀ branch, store.awaits branch →
    .provisional branch ∈ sinceKept branch log ∨
      (.refused branch ∈ sinceKept branch log ∧ store.registry.provisionalReceived branch) →
    ∃ phase ∈ threads, phase.brings branch

theorem Prompt.new (registry : LegRegistry) :
  Prompt [] { registry := registry } []
  := by
  constructor <;> simp [sinceKept]

/-- A call that finds the count zero while none is to raise it keeps all prompt. -/
theorem Prompt.move {store next : CancelStore} {phase phase' : CancelPhase}
    {before after : List CancelPhase} (h : Prompt log store (before ++ phase :: after))
    (hsound : Sound registry log store (before ++ phase :: after))
    (hmove : Move store phase next phase' out)
    (hloads : phase.loads → store.deferredCancels = 0 →
      ∀ other ∈ before ++ phase :: after, other.raises = false) :
  Prompt (log ++ out) next (before ++ phase' :: after)
  := by
  have hphase : phase ∈ before ++ phase :: after := by simp
  have hcounted : ∀ branch, store.awaits branch → ¬ (phase.loads ∧ store.deferredCancels = 0) := by
    rintro branch hawaits ⟨hload, hzero⟩
    rw [hsound.awaits_of_zero (hloads hload hzero) hzero branch] at hawaits
    cases hawaits
  -- A call that brings a provisional is still there, as the one that moved or another.
  have hstays : ∀ branch, store.awaits branch → next.awaits branch →
      (∃ other ∈ before ++ phase :: after, other.brings branch) →
      ∃ other ∈ before ++ phase' :: after, other.brings branch := by
    rintro branch hbefore hafter ⟨other, hother, hbrings⟩
    simp only [mem_append, mem_cons] at hother
    rcases hother with hother | rfl | hother
    · exact ⟨other, by simp [hother], hbrings⟩
    · rcases hmove.brings_cases hbrings with hbrings | hnot | hzero
      · exact ⟨phase', by simp, hbrings⟩
      · rw [hafter] at hnot
        cases hnot
      · exact absurd hzero (hcounted branch hbefore)
    · exact ⟨other, by simp [hother], hbrings⟩
  constructor
  · intro branch hawaits
    rcases hmove.awaits_cases hawaits with rfl | ⟨hbefore, hout⟩
    · simp
    have hnot : .kept branch ∉ out := fun hkept => (hout _ hkept).1 rfl
    rw [sinceKept_append hnot, mem_append, not_or]
    refine ⟨h.timed branch hbefore, ?_⟩
    intro htimed
    exact hcounted branch hbefore ((hout _ htimed).2.2 rfl)
  · intro branch hawaits hsince
    rcases hmove.awaits_cases hawaits with rfl | ⟨hbefore, hout⟩
    · simp at hsince
    have hnot : .kept branch ∉ out := fun hkept => (hout _ hkept).1 rfl
    rw [sinceKept_append hnot, mem_append, mem_append] at hsince
    rcases hsince with (hprovisional | hprovisional) | ⟨hrefused, hreceived⟩
    · exact hstays branch hbefore hawaits (h.brought branch hbefore (.inl hprovisional))
    · exact ⟨phase', by simp, hmove.brings_of_provisional hprovisional⟩
    · rcases hrefused with hrefused | hrefused
      · rcases hmove.provisionalReceived_cases hreceived with hreceived | ⟨hbrings, -⟩
        · exact hstays branch hbefore hawaits
            (h.brought branch hbefore (.inr ⟨hrefused, hreceived⟩))
        · exact ⟨phase', by simp, hbrings⟩
      · have hnone := hmove.refused_cases (hsound.originated phase hphase) hrefused
        rw [hreceived] at hnone
        cases hnone

/-- Nobody finds the count zero while a branch is in the map and not counted. -/
def undisturbed (state : CancelStore × List CancelPhase) : Threads.Input CancelCall ℕ → Bool
  | .begin _ => true
  | .run index _ =>
    match state.2[index]? with
    | none => true
    | some phase =>
      !(phase.loads && state.1.deferredCancels == 0) || state.2.all (!·.raises)

/-! ### Runs -/

/-- No branch is kept, and no call has begun. -/
def noneKept (registry : LegRegistry) : CancelStore × List CancelPhase :=
  ({ registry := registry }, [])

/-- Every run is sound. -/
theorem sound_run (registry : LegRegistry) (inputs : List (Threads.Input CancelCall ℕ)) :
  Sound registry (cancelThreads.machine.outputs (noneKept registry) inputs)
    (cancelThreads.machine.run (noneKept registry) inputs).1
    (cancelThreads.machine.run (noneKept registry) inputs).2
  := by
  refine @Threads.logged _ _ _ _ _ cancelThreads (Sound registry) (fun _ _ => True) ?_ ?_ _
    (Sound.new registry) _ (fun _ _ _ => trivial)
  · intro log store threads call h
    exact h.begin call
  · intro log store before phase after now _ h
    exact h.move (move_access store now phase)

theorem prompt_run {inputs : List (Threads.Input CancelCall ℕ)}
    (hundisturbed : ∀ before input, before ++ [input] <+: inputs →
      undisturbed (cancelThreads.machine.run (noneKept registry) before) input) :
  Prompt (cancelThreads.machine.outputs (noneKept registry) inputs)
    (cancelThreads.machine.run (noneKept registry) inputs).1
    (cancelThreads.machine.run (noneKept registry) inputs).2
  := by
  refine (@Threads.logged _ _ _ _ _ cancelThreads
    (fun log store threads => Sound registry log store threads ∧ Prompt log store threads)
    (fun state input => undisturbed state input) ?_ ?_ _
    ⟨Sound.new registry, Prompt.new registry⟩ _ hundisturbed).2
  · rintro log store threads call ⟨hsound, hprompt⟩
    refine ⟨hsound.begin call, hprompt.timed, ?_⟩
    intro branch hawaits hsince
    obtain ⟨phase, hphase, hbrings⟩ := hprompt.brought branch hawaits hsince
    exact ⟨phase, mem_append_left _ hphase, hbrings⟩
  · rintro log store before phase after now hallowed ⟨hsound, hprompt⟩
    have hmove := move_access store now phase
    refine ⟨hsound.move hmove, hprompt.move hsound hmove ?_⟩
    intro hloads hzero other hother
    have hall : (before ++ phase :: after).all (!·.raises) = true := by
      simpa [undisturbed, hloads, hzero] using hallowed
    simpa using all_eq_true.mp hall other hother

theorem released_step {state : CancelStore × List CancelPhase}
    (h : Sound registry log state.1 state.2) {input : Threads.Input CancelCall ℕ} {leg : Option Leg}
    (hreleased : .released branch leg ∈ (cancelThreads.machine.step state input).2) :
  state.1.awaits branch ∧ Heard registry log branch
  := by
  obtain ⟨store, threads⟩ := state
  cases input with
  | begin call => simp [Threads.machine] at hreleased
  | run index now =>
  simp only [Threads.machine] at hreleased
  split at hreleased
  · simp at hreleased
  · rename_i phase hphase
    obtain ⟨before, after, rfl, rfl⟩ := Slice.exists_split_of_getElem? hphase
    exact h.released (move_access store now phase) hreleased

/-- In every run a CANCEL is handed out for a branch that is kept, for the first time since it was
kept, after a provisional and not after a final response, and the count is right when no call is
under way.  If nobody finds the count zero while a branch is in the map and not counted, none is
handed out after Timer B either, and when no call is under way a kept branch that has had a
provisional since it was kept, or before a claim, has had its CANCEL, unless its INVITE or its time
was over first. -/
theorem deferred_cancels (registry : LegRegistry) (inputs : List (Threads.Input CancelCall ℕ)) :
  let log := cancelThreads.machine.outputs (noneKept registry)
  let run := cancelThreads.machine.run (noneKept registry)
  let idle := ∀ phase ∈ (run inputs).2, phase = .done
  let undisturbed := ∀ before input, before ++ [input] <+: inputs →
    undisturbed (run before) input
  (∀ before input branch leg, before ++ [input] <+: inputs →
    .released branch leg ∈ (cancelThreads.machine.step (run before) input).2 →
    .kept branch ∈ log before ∧ Heard registry (log before) branch ∧
      (∀ event ∈ sinceKept branch (log before), event.settles branch = false) ∧
      (undisturbed → .timedOut branch ∉ sinceKept branch (log before))) ∧
  (idle → (run inputs).1.deferredCancels = (run inputs).1.waiting) ∧
  (idle → undisturbed → ∀ branch, .kept branch ∈ log inputs →
    (.provisional branch ∈ sinceKept branch (log inputs) ∨
      (.refused branch ∈ sinceKept branch (log inputs) ∧
        (run inputs).1.registry.provisionalReceived branch)) →
    ∃ event ∈ sinceKept branch (log inputs), event.settles branch ∨ event = .timedOut branch)
  := by
  intro log run idle hundisturbed
  have hsound := sound_run registry inputs
  refine ⟨?_, ?_, ?_⟩
  · intro before input branch leg hpre hreleased
    have hbefore := sound_run registry before
    obtain ⟨hawaits, hheard⟩ := released_step hbefore hreleased
    obtain ⟨hkept, hsince⟩ := hbefore.kept branch hawaits
    refine ⟨hkept, hheard, hsince, ?_⟩
    intro hall
    refine (prompt_run ?_).timed branch hawaits
    intro earlier step hearlier
    exact hall earlier step (hearlier.trans ((prefix_append before [input]).trans hpre))
  · intro hidle
    have haccount := hsound.account
    have hdebt : (run inputs).2.map debt = (run inputs).2.map fun _ => 0 := by
      apply map_congr_left
      intro phase hphase
      rw [hidle phase hphase]
      rfl
    have hsurplus : (run inputs).1.surplus = 0 := by
      simpa [run, hdebt] using haccount
    rw [surplus] at hsurplus
    omega
  · intro hidle hall branch hkept hsince
    cases hawaits : (run inputs).1.awaits branch with
    | false => exact hsound.ended branch hkept hawaits
    | true =>
    obtain ⟨phase, hphase, hbrings⟩ := (prompt_run hall).brought branch hawaits hsince
    rw [hidle phase hphase] at hbrings
    cases hbrings

def twoLegs : LegRegistry where
  byBranch := (IndexMap.empty.insert "a".toList ⟨"call".toList, false⟩).insert "b".toList
    ⟨"call".toList, false⟩

def keepBranch (branch : Text) : Threads.Input CancelCall ℕ :=
  .begin (.keepLeg ⟨branch, .b, branch, branch, none, none, false⟩ ⟨none⟩)

/-- Branch `a` is kept and its claim refused.  Branch `b` is put into the map and has its final
response before it is counted, so that the count is zero when the provisional of `a` comes. -/
def finalBeforeCount : List (Threads.Input CancelCall ℕ) :=
  [keepBranch "a".toList, .run 0 0, .run 0 0, .run 0 0,
    .begin (.claimCancel "a".toList), .run 1 0, .run 1 0,
    keepBranch "b".toList, .run 2 0,
    .begin (.zombieCancelledForNon2xx "b".toList), .run 3 0, .run 3 0,
    .begin (.provisionalReceived "a".toList), .run 4 0, .run 4 0,
    .run 2 0, .run 2 0]

/-- All calls have ended, and the CANCEL of `a` still waits after its provisional. -/
theorem finalBeforeCount_leaves_cancel :
  let log := cancelThreads.machine.outputs (noneKept twoLegs) finalBeforeCount
  let state := cancelThreads.machine.run (noneKept twoLegs) finalBeforeCount
  (∀ phase ∈ state.2, phase = .done) ∧ .kept "a".toList ∈ log ∧
    .provisional "a".toList ∈ sinceKept "a".toList log ∧ state.1.awaits "a".toList ∧
    ∀ event ∈ sinceKept "a".toList log,
      event.settles "a".toList = false ∧ event ≠ .timedOut "a".toList
  := by
  decide +kernel

end Siphon.B2bua
