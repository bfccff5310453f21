import Siphon.Admission.ExactSlots

/-!
# The call rate in any window

Each call that is admitted puts the due time off by one interval, and none is admitted while that is
further off than the tolerance; the clock is far from the last number.
-/

namespace Siphon.Admission

open List

/-- One access of a call that takes its place in the rate schedule: the reading of its clock, and
what the loop read last. -/
structure RateAccess where
  now : ℕ
  move : AdmissionMove
  current : Option ℕ

namespace LimitState

variable (state : LimitState)

def interval : ℕ :=
  max (nanosPerSecond / state.limits.maxCallsPerSecond) 1

def tolerance : ℕ :=
  saturatingMul64 state.interval (state.limits.maxCallsPerSecond - 1)

/-- A reading of the clock since the epoch. -/
def nanos (now : ℕ) : ℕ :=
  min (now - state.epoch) (2 ^ 64 - 1)

/-- The limiter under accesses of any calls; put out is the time of a call that returns, and whether
it is admitted. -/
def rateMachine : Machine LimitState RateAccess (ℕ × Bool) where
  step state access :=
    match state.tryTakeRate access.now access.move access.current with
    | (taken, .returned admitted) => (taken, [(state.nanos access.now, admitted)])
    | (taken, .swapping _) => (taken, [])

/-- The limiter at a due time. -/
def due (arrival : ℕ) : LimitState :=
  { state with theoreticalArrivalNanos := arrival }

/-- The due time after a call that is admitted. -/
def nextDue (now arrival : ℕ) : Option ℕ :=
  if arrival ≤ saturatingAdd64 (state.nanos now) state.tolerance then
    some (saturatingAdd64 (max arrival (state.nanos now)) state.interval)
  else none

/-- A loop goes on with a due time it may replace. -/
def GoesOn (access : RateAccess) : Prop :=
  ∀ arrival ∈ access.current, state.nextDue access.now arrival ≠ none

theorem tolerance_eq {latest : ℕ} (hlatest : latest + state.tolerance < 2 ^ 64 - 1) :
  state.tolerance = (state.limits.maxCallsPerSecond - 1) * state.interval
  := by
  rw [tolerance, saturatingMul64, Nat.mul_comm] at hlatest ⊢
  omega

variable {state} (hrate : 0 < state.limits.maxCallsPerSecond)
include hrate

theorem tryTakeRate_due (now arrival : ℕ) (move : AdmissionMove) (current : Option ℕ) :
  (state.due arrival).tryTakeRate now move current
    = Prod.map state.due id (updateAtomic (state.nextDue now) arrival move.spurious current)
  := if_neg (Nat.ne_of_gt hrate)

/-- An access admits its call and puts the due time off, or leaves it and admits none; and a loop
that goes on refuses its call only if no call may be admitted. -/
theorem rate_step (arrival : ℕ) (access : RateAccess) :
  (∃ next, state.nextDue access.now arrival = some next
      ∧ rateMachine.step (state.due arrival) access
        = (state.due next, [(state.nanos access.now, true)]))
    ∨ rateMachine.step (state.due arrival) access = (state.due arrival, [])
    ∨ (state.GoesOn access → state.nextDue access.now arrival = none)
      ∧ rateMachine.step (state.due arrival) access
        = (state.due arrival, [(state.nanos access.now, false)])
  := by
  simp only [rateMachine, tryTakeRate_due hrate, GoesOn]
  have hconsider : consider (state.nextDue access.now) arrival = .swapping arrival
      ∨ state.nextDue access.now arrival = none
        ∧ consider (state.nextDue access.now) arrival = .returned false := by
    rw [consider]
    split <;> simp [*]
  fun_cases updateAtomic (state.nextDue access.now) arrival access.move.spurious access.current with
  | case1 | case4 =>
    rcases hconsider with hconsider | ⟨hnone, hconsider⟩
    · rw [hconsider]
      exact .inr (.inl rfl)
    · rw [hconsider]
      exact .inr (.inr ⟨fun _ => hnone, rfl⟩)
  | case2 current hnone => exact .inr (.inr ⟨fun h => absurd hnone (h current (by simp [*])), rfl⟩)
  | case3 current next hnext heq => exact .inl ⟨next, heq.1 ▸ hnext, rfl⟩

section

variable {latest : ℕ} (hlatest : latest + state.tolerance < 2 ^ 64 - 1)
include hlatest

/-- The calls admitted in a window put the due time off by as many intervals from its start. -/
theorem window_bound {accesses : List RateAccess}
    (htimes : ∀ access ∈ accesses, state.nanos access.now ≤ latest) (start width : ℕ) :
  ((rateMachine.outputs state accesses).countP
      fun call => call.2 = true ∧ start ≤ call.1 ∧ call.1 ≤ start + width)
    ≤ state.limits.maxCallsPerSecond + width / state.interval
  := by
  have hpos : 0 < state.interval := lt_max_of_lt_right one_pos
  have hfits : ∀ n, n * state.interval ≤ width + state.tolerance →
      n + 1 ≤ state.limits.maxCallsPerSecond + width / state.interval := by
    intro n hn
    rw [state.tolerance_eq hlatest] at hn
    have : n - (state.limits.maxCallsPerSecond - 1) ≤ width / state.interval := by
      rw [Nat.le_div_iff_mul_le hpos, Nat.sub_mul]
      omega
    omega
  -- The due time is counted from the window's start, unless it has saturated and nothing follows.
  have hinv := @Machine.logged_of_allowed _ _ _ rateMachine
    (fun log s => ∃ arrival n, s = state.due arrival
      ∧ log.countP (fun call => call.2 = true ∧ start ≤ call.1 ∧ call.1 ≤ start + width) = n
      ∧ (n = 0 ∨ start + n * state.interval ≤ arrival ∨ 2 ^ 64 - 1 ≤ arrival)
      ∧ n ≤ state.limits.maxCallsPerSecond + width / state.interval)
    (fun _ access => state.nanos access.now ≤ latest) ?_ state
    ⟨_, 0, rfl, rfl, .inl rfl, Nat.zero_le _⟩ accesses ?_
  · obtain ⟨-, n, -, hn, -, hbound⟩ := hinv
    rwa [hn]
  · rintro log _ access htime ⟨arrival, n, rfl, hn, hoffset, hbound⟩
    rcases rate_step hrate arrival access with ⟨next, hnext, hstep⟩ | hstep | ⟨-, hstep⟩
    · rw [hstep, countP_append, hn]
      refine ⟨next, _, rfl, rfl, ?_⟩
      rw [nextDue, saturatingAdd64, saturatingAdd64, Option.ite_none_right_eq_some,
        Option.some_inj] at hnext
      obtain ⟨hdue, rfl⟩ := hnext
      simp only [countP_singleton, decide_eq_true_eq, true_and]
      have hone := hfits n
      have hzero : n = 0 → n * state.interval = 0 := by simp +contextual
      have hgrow : (n + 1) * state.interval = n * state.interval + state.interval :=
        Nat.add_one_mul ..
      generalize state.nanos access.now = time at htime hdue ⊢
      split
      · generalize n * state.interval = offset at *
        omega
      · generalize n * state.interval = offset at *
        omega
    · rw [hstep, append_nil]
      exact ⟨arrival, n, rfl, hn, hoffset, hbound⟩
    · rw [hstep, countP_append, hn]
      exact ⟨arrival, n, rfl, by simp, hoffset, hbound⟩
  · intro before access hpre
    exact htimes access (hpre.subset (by simp))

/-- After `k` calls at one instant an idle limiter is due `k` intervals later, and one more is
admitted if and only if fewer than its rate were. -/
theorem nextDue_isSome_iff {now arrival k : ℕ} (hnow : state.nanos now ≤ latest)
    (hdue : max arrival (state.nanos now)
      = saturatingAdd64 (state.nanos now) (k * state.interval)) :
  arrival ≤ saturatingAdd64 (state.nanos now) state.tolerance
    ↔ k < state.limits.maxCallsPerSecond
  := by
  have hpos : 0 < state.interval := lt_max_of_lt_right one_pos
  have htolerance := state.tolerance_eq hlatest
  have hfits : k * state.interval ≤ (state.limits.maxCallsPerSecond - 1) * state.interval
      ↔ k ≤ state.limits.maxCallsPerSecond - 1 :=
    Nat.mul_le_mul_right_iff hpos
  rw [saturatingAdd64] at hdue ⊢
  omega

/-- The calls that return at one instant from an idle limiter: the first ones, as many as its rate,
are admitted. -/
theorem burst {now : ℕ} (hnow : state.nanos now ≤ latest)
    (hidle : state.theoreticalArrivalNanos ≤ state.nanos now) {accesses : List RateAccess}
    (haccesses : ∀ access ∈ accesses, access.now = now ∧ state.GoesOn access) :
  (rateMachine.outputs state accesses).map Prod.snd
    = replicate (min state.limits.maxCallsPerSecond (rateMachine.outputs state accesses).length)
        true
      ++ replicate ((rateMachine.outputs state accesses).length - state.limits.maxCallsPerSecond)
        false
  := by
  have hinv := @Machine.logged_of_allowed _ _ _ rateMachine
    (fun log s => ∃ arrival k n, s = state.due arrival
      ∧ k = min state.limits.maxCallsPerSecond n
      ∧ max arrival (state.nanos now) = saturatingAdd64 (state.nanos now) (k * state.interval)
      ∧ log.map Prod.snd
        = replicate k true ++ replicate (n - state.limits.maxCallsPerSecond) false)
    (fun _ access => access.now = now ∧ state.GoesOn access) ?_ state
    ⟨_, 0, 0, rfl, by simp, ?_, by simp⟩ accesses
    fun before access hpre => haccesses access (hpre.subset (by simp))
  · obtain ⟨-, k, n, -, rfl, -, hlog⟩ := hinv
    have hn : (rateMachine.outputs state accesses).length = n := by
      have hlength := congrArg length hlog
      simp only [length_map, length_append, length_replicate] at hlength
      omega
    rw [hlog, hn]
  · rintro log _ access ⟨rfl, hgoes⟩ ⟨arrival, k, n, rfl, hk, hdue, hlog⟩
    have hfree := nextDue_isSome_iff hrate hlatest hnow hdue
    rcases rate_step hrate arrival access with ⟨next, hnext, hstep⟩ | hstep | ⟨hnone, hstep⟩
    · rw [nextDue, Option.ite_none_right_eq_some, Option.some_inj] at hnext
      obtain ⟨harrival, rfl⟩ := hnext
      have hlt := hfree.mp harrival
      refine ⟨_, k + 1, n + 1, by rw [hstep], by omega, ?_, ?_⟩
      · rw [hdue, saturatingAdd64, saturatingAdd64, saturatingAdd64, Nat.add_one_mul]
        have : state.nanos access.now ≤ 2 ^ 64 - 1 := Nat.min_le_right ..
        omega
      · rw [hstep, map_append, hlog, show n - state.limits.maxCallsPerSecond = 0 by omega,
          show n + 1 - state.limits.maxCallsPerSecond = 0 by omega, replicate_succ']
        simp
    · rw [hstep, append_nil]
      exact ⟨arrival, k, n, rfl, hk, hdue, hlog⟩
    · have hfull : ¬ k < state.limits.maxCallsPerSecond := by
        rw [← hfree]
        simpa [nextDue] using hnone hgoes
      refine ⟨arrival, k, n + 1, by rw [hstep], by omega, hdue, ?_⟩
      rw [hstep, map_append, hlog, append_assoc,
        show n + 1 - state.limits.maxCallsPerSecond = n - state.limits.maxCallsPerSecond + 1 by
          omega, replicate_succ']
      rfl
  · have : state.nanos now ≤ 2 ^ 64 - 1 := Nat.min_le_right ..
    rw [saturatingAdd64]
    omega

end

/-- Any number of calls can return at one instant. -/
theorem exists_returned (now n arrival : ℕ) :
  ∃ accesses, (∀ access ∈ accesses, access.now = now ∧ state.GoesOn access)
    ∧ (rateMachine.outputs (state.due arrival) accesses).length = n
  := by
  induction n generalizing arrival with
  | zero => exact ⟨[], by simp, rfl⟩
  | succ n ih =>
    -- one access is enough: a swap of the due time, or a load that finds it too late
    obtain ⟨access, next, hnow, hgoes, hstep⟩ : ∃ (access : RateAccess) (next : ℕ),
        access.now = now ∧ state.GoesOn access ∧ ∃ call,
          rateMachine.step (state.due arrival) access = (state.due next, [call]) := by
      cases hnext : state.nextDue now arrival with
      | none =>
        refine ⟨⟨now, ⟨now, false⟩, none⟩, arrival, rfl, by simp [GoesOn],
          (state.nanos now, false), ?_⟩
        simp [rateMachine, tryTakeRate_due hrate, updateAtomic, consider, hnext]
        rfl
      | some next =>
        refine ⟨⟨now, ⟨now, false⟩, some arrival⟩, next, rfl, by simp [GoesOn, hnext],
          (state.nanos now, true), ?_⟩
        simp [rateMachine, tryTakeRate_due hrate, updateAtomic, hnext]
        rfl
    obtain ⟨call, hstep⟩ := hstep
    obtain ⟨accesses, haccesses, hlength⟩ := ih next
    refine ⟨access :: accesses, by simpa using ⟨⟨hnow, hgoes⟩, haccesses⟩, ?_⟩
    rw [Machine.outputs, Machine.trace_cons, hstep, flatMap_cons, length_append, ← Machine.outputs,
      hlength, length_singleton, Nat.add_comm]

end LimitState

/-- While the clock and the tolerance stay below the last number, a limiter keeps its rate in every
window of every run; of the calls that return at one instant an idle one admits exactly the first
ones, as many as its rate; and a refused call changes nothing. -/
theorem call_rate (state : LimitState) (hrate : 0 < state.limits.maxCallsPerSecond) (latest : ℕ)
    (hlatest : latest + state.tolerance < 2 ^ 64 - 1) :
  (∀ accesses, (∀ access ∈ accesses, state.nanos access.now ≤ latest) → ∀ start width,
    ((LimitState.rateMachine.outputs state accesses).countP
        fun call => call.2 = true ∧ start ≤ call.1 ∧ call.1 ≤ start + width)
      ≤ state.limits.maxCallsPerSecond + width / state.interval)
    ∧ (∀ now, state.nanos now ≤ latest → state.theoreticalArrivalNanos ≤ state.nanos now →
      (∀ accesses, (∀ access ∈ accesses, access.now = now ∧ state.GoesOn access) →
        let calls := LimitState.rateMachine.outputs state accesses
        calls.map Prod.snd = replicate (min state.limits.maxCallsPerSecond calls.length) true
          ++ replicate (calls.length - state.limits.maxCallsPerSecond) false)
      ∧ ∀ n, ∃ accesses, (∀ access ∈ accesses, access.now = now ∧ state.GoesOn access)
        ∧ (LimitState.rateMachine.outputs state accesses).length = n)
    ∧ ∀ now move current, (state.tryTakeRate now move current).2 = .returned false →
      (state.tryTakeRate now move current).1 = state
  := by
  refine ⟨?_, ?_, ?_⟩
  · intro accesses htimes start width
    exact LimitState.window_bound hrate hlatest htimes start width
  · intro now hnow hidle
    exact ⟨fun accesses => LimitState.burst hrate hlatest hnow hidle,
      fun n => LimitState.exists_returned hrate now n state.theoreticalArrivalNanos⟩
  · intro now move current hrefused
    rw [show state = state.due state.theoreticalArrivalNanos from rfl,
      LimitState.tryTakeRate_due hrate] at hrefused ⊢
    rcases updateAtomic_cases (state.nextDue now) state.theoreticalArrivalNanos move.spurious
      current with ⟨next, -, hupdate⟩ | ⟨hvalue, -⟩
    · rw [hupdate] at hrefused
      cases hrefused
    · rw [Prod.map_fst, hvalue]

/-- Two calls a second, and a call that is due now or after so many seconds. -/
def twoASecond (seconds : ℕ) : LimitState :=
  ⟨⟨0, 2, 486, 0⟩, 0, 0, seconds * nanosPerSecond⟩

/-- Three calls that load the due time at one instant and then swap it, one after the other. -/
def threeAtOnce : List RateAccess :=
  [⟨0, ⟨0, false⟩, none⟩, ⟨0, ⟨0, false⟩, some 0⟩, ⟨0, ⟨0, false⟩, none⟩,
    ⟨0, ⟨0, false⟩, some (nanosPerSecond / 2)⟩, ⟨0, ⟨0, false⟩, none⟩]

theorem threeAtOnce_two_admitted :
  ((LimitState.rateMachine.outputs (twoASecond 0) threeAtOnce).countP
      fun call => call.2 = true ∧ 0 ≤ call.1 ∧ call.1 ≤ 0) ≤ 2
    ∧ (LimitState.rateMachine.outputs (twoASecond 0) threeAtOnce).map Prod.snd
      = [true, true, false]
    ∧ ((twoASecond 5).tryTakeRate 0 ⟨0, false⟩ none).1 = twoASecond 5
  := by
  obtain ⟨hwindow, hburst, -⟩ := call_rate (twoASecond 0) (by decide) 0 (by decide)
  obtain ⟨-, -, hrefused⟩ := call_rate (twoASecond 5) (by decide) 0 (by decide)
  refine ⟨hwindow threeAtOnce (by decide) 0 0, ?_, hrefused 0 ⟨0, false⟩ none (by decide)⟩
  exact (hburst 0 (by decide) (by decide)).1 threeAtOnce
    (by simp +decide [threeAtOnce, LimitState.GoesOn])

end Siphon.Admission
