import Siphon.Admission.Controller

/-!
# Admission slots are exact

What each access does to the active counts and to the rate schedules, and from that, for every
interleaving: the counts are the slots that the calls hold as long as these are fewer than a count
can say, and a call that is refused leaves nothing behind.
-/

namespace Siphon.Admission

open List LimitState Threads AdmissionPhase

/-! ### Single accesses -/

/-- An access of a loop replaces the value, or leaves it and does not return that it did. -/
theorem updateAtomic_cases (next : ℕ → Option ℕ) (value : ℕ) (spurious : Bool)
    (current : Option ℕ) :
  (∃ replacement, next value = some replacement ∧
      updateAtomic next value spurious current = (replacement, .returned true))
    ∨ (updateAtomic next value spurious current).1 = value ∧
      (updateAtomic next value spurious current).2 ≠ .returned true
  := by
  have hconsider : consider next value ≠ .returned true := by
    rw [consider]
    split <;> simp
  fun_cases updateAtomic next value spurious current with
  | case1 | case4 => exact .inr ⟨rfl, hconsider⟩
  | case2 => exact .inr ⟨rfl, by simp⟩
  | case3 current replacement hnext heq => exact .inl ⟨replacement, heq.1 ▸ hnext, rfl⟩

theorem updateAtomic_of_total {next : ℕ → Option ℕ} (h : ∀ value, next value ≠ none) (value : ℕ)
    (spurious : Bool) (current : Option ℕ) :
  (updateAtomic next value spurious current).2 ≠ .returned false
  := by
  have hconsider : consider next value ≠ .returned false := by
    rw [consider, if_neg (h value)]
    simp
  fun_cases updateAtomic next value spurious current with
  | case1 | case4 => exact hconsider
  | case2 current hnext => exact absurd hnext (h current)
  | case3 => simp

namespace LimitState

variable {state : LimitState} {move : AdmissionMove} {current : Option ℕ}

theorem tryTakeSlot_cases (state : LimitState) (move : AdmissionMove) (current : Option ℕ) :
  (state.limits.maxConcurrentCalls = 0 ∧
      state.tryTakeSlot move current = (state.takeSlotUnrefused, .returned true))
    ∨ (state.limits.maxConcurrentCalls ≠ 0 ∧
      state.active < state.limits.maxConcurrentCalls ∧
      state.tryTakeSlot move current =
        ({ state with active := state.active + 1 }, .returned true))
    ∨ (state.limits.maxConcurrentCalls ≠ 0 ∧ (state.tryTakeSlot move current).1 = state ∧
      (state.tryTakeSlot move current).2 ≠ .returned true)
  := by
  rw [tryTakeSlot]
  by_cases hlimit : state.limits.maxConcurrentCalls = 0
  · exact .inl ⟨hlimit, if_pos hlimit⟩
  rw [if_neg hlimit]
  obtain ⟨replacement, hnext, hupdate⟩ | ⟨hvalue, hprogress⟩ := updateAtomic_cases
    (fun current =>
      if current < state.limits.maxConcurrentCalls then some (current + 1) else none)
    state.active move.spurious current
  · rw [Option.ite_none_right_eq_some] at hnext
    obtain ⟨hlt, ⟨⟩⟩ := hnext
    exact .inr (.inl ⟨hlimit, hlt, by rw [hupdate]⟩)
  · refine .inr (.inr ⟨hlimit, ?_, hprogress⟩)
    dsimp only
    rw [hvalue]

theorem releaseSlot_cases (state : LimitState) (move : AdmissionMove) (current : Option ℕ) :
  state.releaseSlot move current = ({ state with active := state.active - 1 }, .returned true)
    ∨ ∃ current', state.releaseSlot move current = (state, .swapping current')
  := by
  rw [releaseSlot]
  obtain ⟨replacement, hnext, hupdate⟩ | ⟨hvalue, hprogress⟩ := updateAtomic_cases
    (fun current => some (current - 1)) state.active move.spurious current
  · cases hnext
    exact .inl (by rw [hupdate])
  have htotal := @updateAtomic_of_total (fun current => some (current - 1)) (by simp)
    state.active move.spurious current
  generalize updateAtomic (fun current => some (current - 1)) state.active move.spurious
    current = updated at hvalue hprogress htotal ⊢
  obtain ⟨active, progress⟩ := updated
  cases progress with
  | swapping current' => exact .inr ⟨current', by rw [show active = state.active from hvalue]⟩
  | returned replaced => cases replaced <;> simp at hprogress htotal

theorem active_tryTakeRate (now : ℕ) :
  (state.tryTakeRate now move current).1.active = state.active
  := by
  rw [tryTakeRate]
  split <;> rfl

end LimitState

theorem active_update (scopes : Scopes) (scope : Scope) (state : LimitState) (other : Scope) :
  (Function.update scopes scope state other).active =
    if other = scope then state.active else (scopes other).active
  := by
  rw [Function.update_apply]
  split <;> rfl

/-! ### What an access does -/

variable {scopes scopes' : Scopes} {phase phase' : AdmissionPhase}

/-- An access changes no count and nothing its call holds, takes a slot, or gives one back. -/
inductive AdmissionStep (scopes : Scopes) (phase : AdmissionPhase) (scopes' : Scopes)
    (phase' : AdmissionPhase) : Prop where
  | same (hactive : ∀ scope, (scopes' scope).active = (scopes scope).active)
      (hcount : ∀ scope, phase'.scopes.count scope = phase.scopes.count scope)
  | taken (scope : Scope) (value : ℕ)
      (hactive : ∀ other,
        (scopes' other).active = if other = scope then value else (scopes other).active)
      (hcount : ∀ other, phase'.scopes.count other =
        phase.scopes.count other + if other = scope then 1 else 0)
      (hvalue : (scopes scope).active + 1 < 2 ^ 32 → value = (scopes scope).active + 1)
      (hlimit : phase.trying = true → (scopes scope).limits.maxConcurrentCalls ≠ 0 →
        value ≤ (scopes scope).limits.maxConcurrentCalls)
  | given (scope : Scope)
      (hactive : ∀ other, (scopes' other).active =
        if other = scope then (scopes scope).active - 1 else (scopes other).active)
      (hcount : ∀ other, phase.scopes.count other =
        phase'.scopes.count other + if other = scope then 1 else 0)

theorem count_append_group (taken : List ℕ) (state : ℕ) (global : Bool) (other : Scope) :
  (AdmissionPermit.scopes ⟨global, taken ++ [state]⟩).count other =
    (AdmissionPermit.scopes ⟨global, taken⟩).count other
      + if other = .group state then 1 else 0
  := by
  simp only [AdmissionPermit.scopes, map_append, map_cons, map_nil,
    ← append_assoc, count_append, count_singleton, beq_iff_eq]
  simp only [eq_comm]

theorem count_global (taken : List ℕ) (other : Scope) :
  (AdmissionPermit.scopes ⟨true, taken⟩).count other =
    (AdmissionPermit.scopes ⟨false, taken⟩).count other + if other = .global then 1 else 0
  := by
  simp only [AdmissionPermit.scopes, if_true, Bool.false_eq_true, if_false, nil_append,
    singleton_append, count_cons, beq_iff_eq]
  simp only [eq_comm]

theorem count_slotTaken (groups rest : List GroupLimit) (taken : List ℕ) (current : Option ℕ)
    (other : Scope) :
  (slotTaken groups taken rest).scopes.count other =
    (slot groups rest taken current).scopes.count other
      + if other = nextScope rest then 1 else 0
  := by
  cases rest with
  | nil => exact count_global taken other
  | cons group rest => exact count_append_group taken group.state false other

section

variable (scopes : Scopes) (move : AdmissionMove)

theorem admissionStep_slot (groups rest : List GroupLimit) (taken : List ℕ) (current : Option ℕ) :
  AdmissionStep scopes (.slot groups rest taken current)
    (admissionAccess scopes move (.slot groups rest taken current)).1
    (admissionAccess scopes move (.slot groups rest taken current)).2.1
  := by
  have hcount := count_slotTaken groups rest taken current
  rw [admissionAccess]
  obtain ⟨hlimit, heq⟩ | ⟨hlimit, hlt, heq⟩ | ⟨hlimit, hstate, hprogress⟩ :=
    (scopes (nextScope rest)).tryTakeSlot_cases move current
  · simp only [heq]
    refine .taken (nextScope rest) _ (active_update _ _ _) hcount Nat.mod_eq_of_lt ?_
    intro _ hne
    exact absurd hlimit hne
  · simp only [heq]
    exact .taken (nextScope rest) _ (active_update _ _ _) hcount (fun _ => rfl) fun _ _ => hlt
  · generalize (scopes (nextScope rest)).tryTakeSlot move current = tried at hstate hprogress ⊢
    obtain ⟨state, progress⟩ := tried
    subst hstate
    simp only [Function.update_eq_self]
    cases progress with
    | swapping current' => exact .same (fun _ => rfl) fun _ => rfl
    | returned replaced =>
    cases replaced with
    | true => exact absurd rfl hprogress
    | false =>
    refine .same (fun _ => rfl) fun scope => ?_
    simp [AdmissionPhase.scopes, AdmissionOutcome.scopes]

theorem admissionStep_rate (rest : List GroupLimit) (permit : AdmissionPermit)
    (clock current : Option ℕ) :
  AdmissionStep scopes (.rate rest permit clock current)
    (admissionAccess scopes move (.rate rest permit clock current)).1
    (admissionAccess scopes move (.rate rest permit clock current)).2.1
  := by
  have hactive := @active_tryTakeRate (scopes (nextScope rest)) move current
    (clock.getD move.now)
  simp only [admissionAccess]
  generalize (scopes (nextScope rest)).tryTakeRate (clock.getD move.now) move current = tried
    at hactive ⊢
  obtain ⟨state, progress⟩ := tried
  have hsame : ∀ scope, (Function.update scopes (nextScope rest) state scope).active =
      (scopes scope).active := by
    intro scope
    rw [active_update]
    split
    · rename_i heq
      rw [heq]
      exact hactive
    · rfl
  cases progress with
  | swapping current' => exact .same hsame fun _ => rfl
  | returned replaced =>
  cases replaced with
  | true =>
    refine .same hsame fun scope => ?_
    cases rest with
    | nil | cons => rfl
  | false =>
    refine .same hsame fun scope => ?_
    simp [AdmissionPhase.scopes, AdmissionOutcome.scopes]

theorem admissionStep_releasing (scope : Scope) (rest : List Scope) (outcome : AdmissionOutcome)
    (current : Option ℕ) :
  AdmissionStep scopes (.releasing (scope :: rest) outcome current)
    (admissionAccess scopes move (.releasing (scope :: rest) outcome current)).1
    (admissionAccess scopes move (.releasing (scope :: rest) outcome current)).2.1
  := by
  simp only [admissionAccess]
  obtain heq | ⟨current', heq⟩ := (scopes scope).releaseSlot_cases move current
  · rw [heq]
    refine .given scope (active_update _ _ _) fun other => ?_
    simp only [AdmissionPhase.scopes, cons_append, count_cons, beq_iff_eq]
    simp only [eq_comm]
  · rw [heq]
    simp only [Function.update_eq_self]
    exact .same (fun _ => rfl) fun _ => rfl

/-- What the accesses of a call can do. -/
theorem admissionStep (phase : AdmissionPhase) :
  AdmissionStep scopes phase (admissionAccess scopes move phase).1
    (admissionAccess scopes move phase).2.1
  := by
  cases phase with
  | slot groups rest taken current => exact admissionStep_slot scopes move groups rest taken current
  | rate rest permit clock current => exact admissionStep_rate scopes move rest permit clock current
  | unrefused groups =>
    exact .taken .global _ (active_update _ _ _) (count_global []) Nat.mod_eq_of_lt
      (by simp [AdmissionPhase.trying])
  | unrefusedGroups rest taken =>
    cases rest with
    | nil => exact .same (fun _ => rfl) fun _ => rfl
    | cons group rest =>
      exact .taken (.group group.state) _ (active_update _ _ _)
        (count_append_group taken group.state true) Nat.mod_eq_of_lt
        (by simp [AdmissionPhase.trying])
  | releasing rest outcome current =>
    cases rest with
    | cons scope rest => exact admissionStep_releasing scopes move scope rest outcome current
    | nil =>
    cases outcome with
    | permit permit =>
      refine .same (fun _ => rfl) fun scope => ?_
      simp [admissionAccess, AdmissionPhase.scopes, AdmissionOutcome.scopes]
    | refused refusal | dropped => exact .same (fun _ => rfl) fun _ => rfl

end

/-! ### Every interleaving -/

/-- An access moves the counts by what its call took or gave back, as long as fewer slots are held
than a count can say. -/
theorem balanced_access {rest : Scope → ℕ}
    (hexact : ∀ scope, (scopes scope).active = phase.scopes.count scope + rest scope)
    (hstep : AdmissionStep scopes phase scopes' phase')
    (hfew : ∀ scope, phase'.scopes.count scope + rest scope < 2 ^ 32) (scope : Scope) :
  (scopes' scope).active = phase'.scopes.count scope + rest scope
  := by
  have hscope := hexact scope
  cases hstep with
  | same hactive hcount =>
    rw [hactive, hcount]
    exact hscope
  | taken taken value hactive hcount hvalue =>
    have hlt := hfew scope
    rw [hcount] at hlt
    rw [hactive, hcount]
    split
    · rename_i heq
      subst heq
      rw [if_pos rfl] at hlt
      have := hvalue (by omega)
      omega
    · omega
  | given given hactive hcount =>
    rw [hcount] at hscope
    rw [hactive]
    split
    · rename_i heq
      subst heq
      rw [if_pos rfl] at hscope
      omega
    · rename_i hne
      rw [if_neg hne] at hscope
      exact hscope

def initial (limits : Scope → InboundLimits) (epoch : Scope → ℕ) : Scopes :=
  fun scope => .new (limits scope) (epoch scope)

variable (limits : Scope → InboundLimits) (epoch : Scope → ℕ)
  (inputs : List (Threads.Input AdmissionCall AdmissionMove))

theorem update_keeps {α : Type} (field : LimitState → α) (scope changed : Scope)
    (state : LimitState) (h : field state = field (scopes changed)) :
  field (Function.update scopes changed state scope) = field (scopes scope)
  := by
  rw [Function.update_apply]
  split
  · rename_i heq
    rw [h, heq]
  · rfl

variable (move : AdmissionMove)

/-- The call has not come to the rates, and does not if it is refused already. -/
def AdmissionPhase.beforeRates (phase : AdmissionPhase) : Bool :=
  phase.trying || phase.slotRefused

/-- An access keeps a field that is no count, if it does not come to a rate or the rates keep it. -/
theorem access_keeps {α : Type} {field : LimitState → α}
    (hactive : ∀ state active, field { state with active := active } = field state)
    (hrate : phase.beforeRates = true
      ∨ ∀ state now current, field (tryTakeRate state now move current).1 = field state)
    (scope : Scope) :
  field ((admissionAccess scopes move phase).1 scope) = field (scopes scope)
  := by
  have hupdate := @update_keeps scopes _ field scope
  cases phase with
  | slot groups rest taken current =>
    have hstate : field ((scopes (nextScope rest)).tryTakeSlot move current).1
        = field (scopes (nextScope rest)) := by
      rw [tryTakeSlot]
      split <;> exact hactive _ _
    simp only [admissionAccess]
    split <;> exact hupdate _ _ hstate
  | rate rest permit clock current =>
    have hrate := hrate.resolve_left (by simp [beforeRates, trying, slotRefused])
    simp only [admissionAccess]
    split <;> exact hupdate _ _ (hrate _ _ _)
  | unrefused groups => exact hupdate _ _ (hactive _ _)
  | unrefusedGroups rest taken =>
    cases rest with
    | nil => rfl
    | cons group rest => exact hupdate _ _ (hactive _ _)
  | releasing rest outcome current =>
    cases rest with
    | cons released rest =>
      simp only [admissionAccess]
      split <;> exact hupdate _ _ (hactive _ _)
    | nil => cases outcome <;> rfl

theorem limits_access (phase : AdmissionPhase) (scope : Scope) :
  ((admissionAccess scopes move phase).1 scope).limits = (scopes scope).limits
  := by
  refine access_keeps move (fun _ _ => rfl) (.inr fun state now current => ?_) scope
  rw [tryTakeRate]
  split <;> rfl

/-- The limits never change. -/
theorem limits_run (scope : Scope) :
  ((admissionThreads.machine.run (initial limits epoch, []) inputs).1 scope).limits = limits scope
  := by
  have hkeep : ∀ scopes move phase, (scopes scope).limits = limits scope →
      ((admissionThreads.access scopes move phase).1 scope).limits = limits scope :=
    fun scopes move phase h => (limits_access move phase scope).trans h
  have hrun := (shared_invariant hkeep).run (s := (initial limits epoch, [])) rfl inputs
  exact hrun

theorem active_le_of_trying (hstep : AdmissionStep scopes phase scopes' phase')
    (htrying : phase.trying = true) {scope : Scope}
    (hlimit : (scopes scope).limits.maxConcurrentCalls ≠ 0)
    (hlt : (scopes scope).active < (scopes' scope).active) :
  (scopes' scope).active ≤ (scopes scope).limits.maxConcurrentCalls
  := by
  cases hstep with
  | same hactive =>
    rw [hactive] at hlt
    exact absurd hlt (lt_irrefl _)
  | taken taken value hactive _ _ hceiling =>
    rw [hactive] at hlt ⊢
    split at hlt
    · rename_i heq
      subst heq
      rw [if_pos rfl]
      exact hceiling htrying hlimit
    · exact absurd hlt (lt_irrefl _)
  | given given hactive =>
    rw [hactive] at hlt
    split at hlt
    · rename_i heq
      subst heq
      omega
    · exact absurd hlt (lt_irrefl _)

/-! ### Rate schedules -/

theorem beforeRates_access (hbefore : phase.beforeRates = false) :
  (admissionAccess scopes move phase).2.1.beforeRates = false
  := by
  cases phase with
  | slot groups rest taken current => cases hbefore
  | rate rest permit clock current =>
    simp only [admissionAccess]
    split
    · rfl
    · cases rest <;> rfl
    · simp [beforeRates, trying, slotRefused, refusal]
  | unrefused groups => rfl
  | unrefusedGroups rest taken => cases rest <;> rfl
  | releasing rest outcome current =>
    cases rest with
    | cons released rest =>
      simp only [admissionAccess]
      split <;> cases outcome <;> exact hbefore
    | nil =>
      cases outcome with
      | permit | dropped => rfl
      | refused refusal => exact hbefore

theorem arrival_step_of_slotRefused {state : Scopes × List AdmissionPhase} {index : ℕ}
    {move : AdmissionMove} {after : List (Threads.Input AdmissionCall AdmissionMove)}
    (hlast : (admissionThreads.machine.run state (.run index move :: after)).2[index]? = some phase)
    (hrefused : phase.slotRefused = true) (scope : Scope) :
  ((admissionThreads.machine.step state (.run index move)).1.1 scope).theoreticalArrivalNanos
    = (state.1 scope).theoreticalArrivalNanos
  := by
  obtain ⟨scopes, threads⟩ := state
  cases hnow : threads[index]? with
  | none => simp [machine, hnow]
  | some now =>
  have hbefore : now.beforeRates = true := by
    by_contra hnot
    have hlater := @phase_run _ _ _ _ _ admissionThreads
      (fun phase => phase.beforeRates = false)
      (fun scopes move phase h => beforeRates_access move h) (scopes, threads) index
      ⟨now, hnow, by simpa using hnot⟩ (.run index move :: after)
    obtain ⟨later, hlater, hrates⟩ := hlater
    rw [hlast] at hlater
    cases hlater
    rw [beforeRates, hrefused, Bool.or_true] at hrates
    cases hrates
  rw [step_run _ hnow]
  exact access_keeps move (fun _ _ => rfl) (.inl hbefore) scope

/-- For every interleaving of any number of calls that hold fewer than 2^32 slots of a scope: the
active counts are the slots that the calls hold, a call that may be refused takes no scope above its
ceiling, one that was refused leaves every count as it found it but for what the others took and
gave back meanwhile, and one that was refused for want of a slot has touched no rate schedule. -/
theorem admission_slots_exact (limits : Scope → InboundLimits) (epoch : Scope → ℕ)
    (inputs : List (Threads.Input AdmissionCall AdmissionMove))
    (hfew : ∀ before, before <+: inputs → ∀ scope,
      held (fun phase => phase.scopes.count scope)
        (admissionThreads.machine.run (initial limits epoch, []) before).2 < 2 ^ 32) :
  let state := admissionThreads.machine.run (initial limits epoch, [])
  let others := fun before index scope =>
    held (fun phase => phase.scopes.count scope) ((state before).2.eraseIdx index)
  (∀ before, before <+: inputs → Exact (state before)) ∧
  (∀ before index move, before ++ [.run index move] <+: inputs →
    ∀ phase, (state before).2[index]? = some phase → phase.trying = true →
    ∀ scope, (limits scope).maxConcurrentCalls ≠ 0 →
    ((state before).1 scope).active < ((state (before ++ [.run index move])).1 scope).active →
    ((state (before ++ [.run index move])).1 scope).active
      ≤ (limits scope).maxConcurrentCalls) ∧
  (∀ earlier later, earlier <+: later → later <+: inputs →
    ∀ index groups refusal current,
    (state earlier).2[index]? = some (AdmissionCall.admitWith groups).start →
    (state later).2[index]? = some (.releasing [] (.refused refusal) current) →
    ∀ scope, ((state later).1 scope).active + others earlier index scope
      = ((state earlier).1 scope).active + others later index scope) ∧
  (∀ before index move, before ++ [.run index move] <+: inputs →
    ∀ phase, (state inputs).2[index]? = some phase → phase.slotRefused = true →
    ∀ scope, ((state (before ++ [.run index move])).1 scope).theoreticalArrivalNanos
      = ((state before).1 scope).theoreticalArrivalNanos)
  := by
  intro state others
  have hexact : ∀ before, before <+: inputs → Exact (state before) := by
    intro before hpre
    refine @exact_of_few _ _ _ _ _ _ admissionThreads _ _ (fun _ => True) _ ?_
      (fun _ _ _ _ => trivial) ?_ _ trivial (fun _ => rfl) before
      fun first h => hfew first (h.trans hpre)
    · intro call scope
      cases call <;> rfl
    · intro scopes move phase rest _ h
      exact balanced_access h (admissionStep scopes move phase)
  refine ⟨hexact, ?_, ?_, ?_⟩
  · intro before index move _ phase hphase htrying scope hne hlt
    have hlimits := limits_run limits epoch before scope
    simp only [state] at hphase hlt ⊢
    rw [Machine.run_append, Machine.run_cons, Machine.run_nil, step_run _ hphase]
      at hlt ⊢
    rw [← hlimits] at hne ⊢
    exact active_le_of_trying (admissionStep _ move phase) htrying hne hlt
  · intro earlier later hearlier hlater index groups refusal current hstart hrefused scope
    have hbefore := (hexact earlier (hearlier.trans hlater)).count_eq hstart scope
    have hafter := (hexact later hlater).count_eq hrefused scope
    have hstart : (AdmissionCall.admitWith groups).start.scopes.count scope = 0 := rfl
    have hrefused :
        (AdmissionPhase.releasing [] (.refused refusal) current).scopes.count scope = 0 :=
      rfl
    simp only [state, others] at hbefore hafter ⊢
    omega
  · rintro before index move ⟨after, rfl⟩ phase hphase hrefused scope
    simp only [state] at hphase ⊢
    rw [append_assoc, singleton_append, Machine.run_append] at hphase
    rw [Machine.run_append]
    exact arrival_step_of_slotRefused hphase hrefused scope

/-- Two calls for one slot of the instance: the first takes it, and the second is refused. -/
def twoCalls : List (Threads.Input AdmissionCall AdmissionMove) :=
  [.begin (.admitWith []), .run 0 ⟨0, false⟩, .run 0 ⟨0, false⟩, .begin (.admitWith []),
    .run 1 ⟨0, false⟩]

theorem twoCalls_exact :
  let limits := fun _ => ⟨1, 0, 503, 1⟩
  let state := admissionThreads.machine.run (initial limits fun _ => 0, [])
  Exact (state twoCalls) ∧ ((state twoCalls).1 .global).active = 1
    ∧ (state twoCalls).2.map AdmissionPhase.slotRefused = [false, true]
    ∧ ∀ scope, ((state twoCalls).1 scope).active
        + held (fun phase => phase.scopes.count scope) ((state (twoCalls.take 4)).2.eraseIdx 1)
      = ((state (twoCalls.take 4)).1 scope).active
        + held (fun phase => phase.scopes.count scope) ((state twoCalls).2.eraseIdx 1)
  := by
  intro limits state
  obtain ⟨hexact, -, hback, -⟩ := admission_slots_exact limits (fun _ => 0) twoCalls
    (held_lt_of_inits (·.scopes.length) (fun _ _ => count_le_length) (by decide +kernel))
  refine ⟨hexact twoCalls (prefix_refl _), by decide +kernel, by decide +kernel, ?_⟩
  exact hback (twoCalls.take 4) twoCalls (List.take_prefix 4 twoCalls) (prefix_refl _) 1 []
    ⟨.global, .concurrent, 503, 1⟩ none (by decide +kernel) (by decide +kernel)

end Siphon.Admission
