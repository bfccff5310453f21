import Siphon.Library.Holdings

/-!
# Call admission

A call takes a slot in every gateway group that admits it and one in the instance, then a place in
each of their rate schedules.  When one is refused, the half-built permit is dropped and gives back
the slots it has.  The counters are atomics that are added to or swapped after a load, so another
call can get in between any two of these.
-/

namespace Siphon.Admission

/-- The limits of a scope; zero means there is none. -/
structure InboundLimits where
  maxConcurrentCalls : ℕ
  maxCallsPerSecond : ℕ
  rejectCode : UInt16
  retryAfterSecs : UInt32

/-- The limits of a scope with its counters.  Times are in nanoseconds. -/
structure LimitState where
  limits : InboundLimits
  active : ℕ
  epoch : ℕ
  theoreticalArrivalNanos : ℕ

def LimitState.new (limits : InboundLimits) (epoch : ℕ) : LimitState :=
  ⟨limits, 0, epoch, 0⟩

/-! ### Atomic updates -/

/-- A compare-and-swap loop goes on with the value it read last, or returns whether it replaced
it. -/
inductive Progress where
  | swapping (current : ℕ)
  | returned (replaced : Bool)
deriving DecidableEq

/-- The loop has read a value. -/
def consider (next : ℕ → Option ℕ) (current : ℕ) : Progress :=
  if next current = none then .returned false else .swapping current

/-- One access of `update_u32` or `update_u64`: the load it begins with, or a compare-and-swap,
which may fail without cause. -/
def updateAtomic (next : ℕ → Option ℕ) (value : ℕ) (spurious : Bool) : Option ℕ → ℕ × Progress
  | none => (value, consider next value)
  | some current =>
    match next current with
    | none => (value, .returned false)
    | some replacement =>
      if value = current ∧ spurious = false then (replacement, .returned true)
      else (value, consider next value)

def saturatingAdd64 (a b : ℕ) : ℕ :=
  min (a + b) (2 ^ 64 - 1)

def saturatingMul64 (a b : ℕ) : ℕ :=
  min (a * b) (2 ^ 64 - 1)

def nanosPerSecond : ℕ :=
  1000000000

/-- What makes a step go on: a reading of the clock, and whether a compare-and-swap fails without
cause. -/
structure AdmissionMove where
  now : ℕ
  spurious : Bool

namespace LimitState

variable (state : LimitState)

/-- A slot more, as `fetch_add` counts it. -/
def takeSlotUnrefused : LimitState :=
  { state with active := (state.active + 1) % 2 ^ 32 }

def tryTakeSlot (move : AdmissionMove) (current : Option ℕ) : LimitState × Progress :=
  let limit := state.limits.maxConcurrentCalls
  if limit = 0 then
    (state.takeSlotUnrefused, .returned true)
  else
    let (active, progress) :=
      updateAtomic (fun current => if current < limit then some (current + 1) else none)
        state.active move.spurious current
    ({ state with active := active }, progress)

def releaseSlot (move : AdmissionMove) (current : Option ℕ) : LimitState × Progress :=
  let (active, progress) :=
    updateAtomic (fun current => some (current - 1)) state.active move.spurious current
  ({ state with active := active }, progress)

/-- The next access of `try_take_rate`, at a reading of the clock. -/
def tryTakeRate (now : ℕ) (move : AdmissionMove) (current : Option ℕ) : LimitState × Progress :=
  let rate := state.limits.maxCallsPerSecond
  if rate = 0 then
    (state, .returned true)
  else
    let interval := max (nanosPerSecond / rate) 1
    let tolerance := saturatingMul64 interval (rate - 1)
    let nowNanos := min (now - state.epoch) (2 ^ 64 - 1)
    let (arrival, progress) :=
      updateAtomic
        (fun arrival =>
          if arrival ≤ saturatingAdd64 nowNanos tolerance then
            some (saturatingAdd64 (max arrival nowNanos) interval)
          else none)
        state.theoreticalArrivalNanos move.spurious current
    ({ state with theoreticalArrivalNanos := arrival }, progress)

end LimitState

/-! ### Calls -/

/-- The instance, or the gateway group whose counters these are. -/
inductive Scope where
  | global
  | group (state : ℕ)
deriving DecidableEq

structure GroupLimit where
  name : String
  state : ℕ
deriving DecidableEq

inductive RefusalScope where
  | global
  | gateway (name : String)
deriving DecidableEq

inductive RefusalReason where
  | concurrent
  | rate
deriving DecidableEq

structure Refusal where
  scope : RefusalScope
  reason : RefusalReason
  rejectCode : UInt16
  retryAfterSecs : UInt32
deriving DecidableEq

/-- A call's hold on the capacity it was admitted against. -/
structure AdmissionPermit where
  /-- Whether it holds a slot of the instance; not so only while it is put together. -/
  global : Bool
  groups : List ℕ
deriving DecidableEq

/-- What dropping the permit gives back, in order. -/
def AdmissionPermit.scopes (permit : AdmissionPermit) : List Scope :=
  (if permit.global then [.global] else []) ++ permit.groups.map .group

abbrev Scopes := Scope → LimitState

/-- The next scope of a pass over the groups and then the instance. -/
def nextScope : List GroupLimit → Scope
  | [] => .global
  | group :: _ => .group group.state

def refusal (scopes : Scopes) (rest : List GroupLimit) (reason : RefusalReason) : Refusal :=
  let limits := (scopes (nextScope rest)).limits
  { scope := match rest with
      | [] => .global
      | group :: _ => .gateway group.name
    reason := reason
    rejectCode := limits.rejectCode
    retryAfterSecs := limits.retryAfterSecs }

inductive AdmissionOutcome where
  | refused (refusal : Refusal)
  | permit (permit : AdmissionPermit)
  | dropped
deriving DecidableEq

/-- Where a call is: trying the slot of the next scope or its rate, taking slots it is not refused,
or giving slots back.  `current` is what a compare-and-swap loop has read, and `clock` the one
reading of the clock. -/
inductive AdmissionPhase where
  | slot (groups rest : List GroupLimit) (taken : List ℕ) (current : Option ℕ)
  | rate (rest : List GroupLimit) (permit : AdmissionPermit) (clock current : Option ℕ)
  | unrefused (groups : List GroupLimit)
  | unrefusedGroups (rest : List GroupLimit) (taken : List ℕ)
  | releasing (scopes : List Scope) (outcome : AdmissionOutcome) (current : Option ℕ)
deriving DecidableEq

/-- An admission that a limit may refuse, or one that none does. -/
inductive AdmissionCall where
  | admitWith (groups : List GroupLimit)
  | admitUnrefused (groups : List GroupLimit)

def AdmissionCall.start : AdmissionCall → AdmissionPhase
  | .admitWith groups => .slot groups groups [] none
  | .admitUnrefused groups => .unrefused groups

def slotTaken (groups : List GroupLimit) (taken : List ℕ) : List GroupLimit → AdmissionPhase
  | [] => .rate groups ⟨true, taken⟩ none none
  | group :: rest => .slot groups rest (taken ++ [group.state]) none

/-- The place in the schedule of the next scope is taken. -/
def rateTaken (permit : AdmissionPermit) (clock : Option ℕ) : List GroupLimit → AdmissionPhase
  | [] => .releasing [] (.permit permit) none
  | _ :: rest => .rate rest permit clock none

def admissionAccess (scopes : Scopes) (move : AdmissionMove) :
    AdmissionPhase → Scopes × AdmissionPhase × List Empty
  | .slot groups rest taken current =>
    let (state, progress) := (scopes (nextScope rest)).tryTakeSlot move current
    let scopes := Function.update scopes (nextScope rest) state
    match progress with
    | .swapping current => (scopes, .slot groups rest taken (some current), [])
    | .returned true => (scopes, slotTaken groups taken rest, [])
    | .returned false =>
      (scopes, .releasing (AdmissionPermit.scopes ⟨false, taken⟩)
        (.refused (refusal scopes rest .concurrent)) none, [])
  | .rate rest permit clock current =>
    -- the clock is read for the first rate that is set
    let now := clock.getD move.now
    let clock :=
      if (scopes (nextScope rest)).limits.maxCallsPerSecond = 0 then clock else some now
    let (state, progress) := (scopes (nextScope rest)).tryTakeRate now move current
    let scopes := Function.update scopes (nextScope rest) state
    match progress with
    | .swapping current => (scopes, .rate rest permit clock (some current), [])
    | .returned true => (scopes, rateTaken permit clock rest, [])
    | .returned false =>
      (scopes, .releasing permit.scopes (.refused (refusal scopes rest .rate)) none, [])
  | .unrefused groups =>
    (Function.update scopes .global (scopes .global).takeSlotUnrefused,
      .unrefusedGroups groups [], [])
  | .unrefusedGroups (group :: rest) taken =>
    let scope := .group group.state
    (Function.update scopes scope (scopes scope).takeSlotUnrefused,
      .unrefusedGroups rest (taken ++ [group.state]), [])
  | .unrefusedGroups [] taken => (scopes, .releasing [] (.permit ⟨true, taken⟩) none, [])
  | .releasing (scope :: rest) outcome current =>
    let (state, progress) := (scopes scope).releaseSlot move current
    let scopes := Function.update scopes scope state
    match progress with
    | .swapping current => (scopes, .releasing (scope :: rest) outcome (some current), [])
    | .returned _ => (scopes, .releasing rest outcome none, [])
  | .releasing [] (.permit permit) _ => (scopes, .releasing permit.scopes .dropped none, [])
  | .releasing [] outcome current => (scopes, .releasing [] outcome current, [])

/-- Any number of calls on the same counters. -/
def admissionThreads : Threads Scopes AdmissionCall AdmissionPhase AdmissionMove Empty where
  start := AdmissionCall.start
  access := admissionAccess

/-! ### What a call holds -/

def AdmissionOutcome.scopes : AdmissionOutcome → List Scope
  | .permit held => held.scopes
  | .refused _ | .dropped => []

/-- The slots a call has taken and not given back. -/
def AdmissionPhase.scopes : AdmissionPhase → List Scope
  | .slot _ _ taken _ => AdmissionPermit.scopes ⟨false, taken⟩
  | .rate _ permit _ _ => permit.scopes
  | .unrefused _ => []
  | .unrefusedGroups _ taken => AdmissionPermit.scopes ⟨true, taken⟩
  | .releasing scopes outcome _ => scopes ++ outcome.scopes

/-- The active counts are the slots the calls hold. -/
def Exact : Scopes × List AdmissionPhase → Prop :=
  Threads.Exact (fun scopes scope => (scopes scope).active) fun phase scope =>
    phase.scopes.count scope

/-- The call is, or is about to be, answered with a refusal for want of a slot. -/
def AdmissionPhase.slotRefused : AdmissionPhase → Bool
  | .releasing _ (.refused refusal) _ => refusal.reason = .concurrent
  | _ => false

/-- The call is trying the slots of its scopes and may be refused one. -/
def AdmissionPhase.trying : AdmissionPhase → Bool
  | .slot .. => true
  | _ => false

end Siphon.Admission
