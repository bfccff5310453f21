import Siphon.Library.Run

/-!
# Pool-fallback lanes

A message without a live connection goes to the lane of its destination, a task that sends one
message at a time and retires when it has been idle.  Over every interleaving a destination has one
lane at most, what was accepted for it is what was sent, what is in flight and what is queued, and
the task of the lane sends all of that.
-/

namespace Siphon.Transport

open List Function

variable {δ μ : Type} [DecidableEq δ]

/-- Sends that a lane queues. -/
def fallbackLaneCapacity : ℕ := 64

inductive LaneTask (μ : Type) where
  | receiving
  | sending (message : μ)
  /-- The idle timer has fired. -/
  | expired

/-- A lane whose task runs: its number, its channel and where its task stands. -/
structure Lane (μ : Type) where
  id : UInt64
  queue : List μ
  task : LaneTask μ

/-- A message is accepted for a destination, or has been sent to it. -/
inductive LaneEvent where
  | accepted
  | sent
deriving DecidableEq

/-- An event of a message of a destination. -/
structure LaneOutput (δ μ : Type) where
  event : LaneEvent
  destination : δ
  message : μ

inductive TaskMove where
  | receive
  | complete
  | expire
  | retire

namespace Lane

/-- The lane after a step of its task, unless it has retired, and what it has sent. -/
def advance : Lane μ → TaskMove → Option (Lane μ) × List μ
  | ⟨id, message :: queue, .receiving⟩, .receive => (some ⟨id, queue, .sending message⟩, [])
  | ⟨id, queue, .sending message⟩, .complete => (some ⟨id, queue, .receiving⟩, [message])
  | ⟨id, queue, .receiving⟩, .expire => (some ⟨id, queue, .expired⟩, [])
  -- a send may have landed as the idle timer fired
  | ⟨id, message :: queue, .expired⟩, .retire => (some ⟨id, message :: queue, .receiving⟩, [])
  | ⟨_, [], .expired⟩, .retire => (none, [])
  | lane, _ => (some lane, [])

/-- What is in flight and queued. -/
def pending (lane : Lane μ) : List μ :=
  match lane.task with
  | .sending message => message :: lane.queue
  | _ => lane.queue

end Lane

/-- The map from destinations to the numbers of their lanes, and the lanes whose tasks run. -/
structure FallbackLanes (δ μ : Type) where
  lanes : δ → Option UInt64
  running : δ → List (Lane μ)
  nextId : UInt64

inductive LaneMove (δ μ : Type) where
  | dispatch (destination : δ) (message : μ)
  | task (destination : δ) (id : UInt64) (move : TaskMove)

def LaneMove.destination : LaneMove δ μ → δ
  | .dispatch destination _ | .task destination _ _ => destination

namespace FallbackLanes

def new : FallbackLanes δ μ :=
  ⟨fun _ => none, fun _ => [], 0⟩

variable (s : FallbackLanes δ μ) (d : δ)

def lane? (id : UInt64) : Option (Lane μ) :=
  (s.running d).find? (·.id == id)

/-- Put another lane, or none, in the place of the one with a number. -/
def replace (id : UInt64) (next : Option (Lane μ)) : δ → List (Lane μ) :=
  update s.running d
    ((s.running d).flatMap fun lane => if lane.id = id then next.toList else [lane])

/-- Queue a message behind any earlier send to the same destination, unless its lane is full. -/
def dispatch (message : μ) : FallbackLanes δ μ × Bool :=
  match (s.lanes d).bind (s.lane? d) with
  | some lane =>
    if lane.queue.length < fallbackLaneCapacity then
      let next := { lane with queue := lane.queue ++ [message] }
      ({ s with running := s.replace d lane.id (some next) }, true)
    else (s, false)
  -- there is no lane, or its task ended without retiring
  | none =>
    (⟨update s.lanes d (some s.nextId),
      update s.running d (s.running d ++ [⟨s.nextId, [message], .receiving⟩]), s.nextId + 1⟩, true)

def step : LaneMove δ μ → FallbackLanes δ μ × List (LaneOutput δ μ)
  | .dispatch d message =>
    let (s, accepted) := s.dispatch d message
    (s, if accepted then [⟨.accepted, d, message⟩] else [])
  | .task d id move =>
    match s.lane? d id with
    | none => (s, [])
    | some lane =>
      let (next, messages) := lane.advance move
      ({ s with
        running := s.replace d id next
        lanes := if next = none ∧ s.lanes d = some id then update s.lanes d none else s.lanes },
        messages.map (⟨.sent, d, ·⟩))

/-- The lanes under the steps of the distributor and of the tasks. -/
def machine : Machine (FallbackLanes δ μ) (LaneMove δ μ) (LaneOutput δ μ) :=
  ⟨step⟩

end FallbackLanes

open FallbackLanes (step)

def messagesOf (event : LaneEvent) (d : δ) (log : List (LaneOutput δ μ)) : List μ :=
  (log.filter fun output => output.event = event ∧ output.destination = d).map LaneOutput.message

theorem messagesOf_append (event : LaneEvent) (d : δ) (log log' : List (LaneOutput δ μ)) :
  messagesOf event d (log ++ log') = messagesOf event d log ++ messagesOf event d log'
  := by
  simp [messagesOf]

theorem messagesOf_map (event event' : LaneEvent) (d d' : δ) (messages : List μ) :
  messagesOf event d (messages.map (⟨event', d', ·⟩))
    = if event' = event ∧ d' = d then messages else []
  := by
  by_cases h : event' = event ∧ d' = d
  all_goals simp [messagesOf, filter_map, comp_def, h]

theorem Lane.advance_spec (lane : Lane μ) (move : TaskMove) :
  lane.pending = (lane.advance move).2 ++ (lane.advance move).1.elim [] Lane.pending
    ∧ (∀ next ∈ (lane.advance move).1, next.id = lane.id)
    ∧ ((lane.advance move).1 = none → lane.pending = [])
  := by
  unfold Lane.advance
  split
  all_goals
    refine ⟨rfl, ?_⟩
    simp [Lane.pending]

namespace FallbackLanes

def pendingFor (s : FallbackLanes δ μ) (d : δ) : List μ :=
  (s.running d).flatMap Lane.pending

/-- A destination has at most one lane, the one of the map, and what was accepted for it was sent
or is pending. -/
def Serves (log : List (LaneOutput δ μ)) (s : FallbackLanes δ μ) (d : δ) : Prop :=
  ∃ lane : Option (Lane μ), s.running d = lane.toList ∧ s.lanes d = lane.map Lane.id
    ∧ messagesOf .accepted d log = messagesOf .sent d log ++ lane.elim [] Lane.pending

variable {log : List (LaneOutput δ μ)} {s : FallbackLanes δ μ} {d : δ}

theorem replace_eq {lane : Lane μ} (hrunning : s.running d = [lane]) (next : Option (Lane μ)) :
  s.replace d lane.id next d = next.toList
  := by
  simp [replace, hrunning]

theorem Serves.dispatch (h : s.Serves log d) (message : μ) :
  (s.step (.dispatch d message)).1.Serves (log ++ (s.step (.dispatch d message)).2) d
    ∧ (s.lanes d ≠ none → (s.step (.dispatch d message)).1.lanes d = s.lanes d)
  := by
  obtain ⟨lane, hrunning, hlanes, haccepted⟩ := h
  simp only [step, FallbackLanes.dispatch]
  cases lane with
  | none =>
    simp only [hlanes, Option.map_none, Option.bind_none]
    refine ⟨⟨some ⟨s.nextId, [message], .receiving⟩, ?_, ?_, ?_⟩, ?_⟩
    · simp [hrunning]
    · simp
    · rw [messagesOf_append, messagesOf_append, haccepted]
      simp [messagesOf, Lane.pending]
    · simp
  | some lane =>
    have hfound : s.lane? d lane.id = some lane := by
      simp [lane?, hrunning]
    simp only [hlanes, Option.map_some, Option.bind_some, hfound]
    split
    · refine ⟨⟨some { lane with queue := lane.queue ++ [message] }, ?_, hlanes, ?_⟩, ?_⟩
      · exact replace_eq hrunning _
      · rw [messagesOf_append, messagesOf_append, haccepted]
        cases htask : lane.task
        all_goals simp [messagesOf, Lane.pending, htask]
      · exact fun _ => hlanes
    · exact ⟨⟨some lane, hrunning, hlanes, by simpa using haccepted⟩, fun _ => hlanes⟩

theorem Serves.task (h : s.Serves log d) (id : UInt64) (move : TaskMove) :
  (s.step (.task d id move)).1.Serves (log ++ (s.step (.task d id move)).2) d
    ∧ ((s.step (.task d id move)).1.lanes d ≠ s.lanes d → s.pendingFor d = [])
  := by
  obtain ⟨lane, hrunning, hlanes, haccepted⟩ := h
  cases hfound : s.lane? d id with
  | none =>
    simp only [step, hfound, append_nil]
    exact ⟨⟨lane, hrunning, hlanes, haccepted⟩, fun h => absurd rfl h⟩
  | some found =>
    -- the lane that takes the step is the one of the map
    obtain rfl : found.id = id := by
      simpa using find?_some hfound
    have hmem : found ∈ lane.toList := hrunning ▸ mem_of_find?_eq_some hfound
    obtain rfl : lane = some found := by
      simpa using hmem
    obtain ⟨hpending, hkept, hended⟩ := found.advance_spec move
    simp only [step, hfound]
    generalize found.advance move = result at *
    obtain ⟨next, messages⟩ := result
    refine ⟨⟨next, replace_eq hrunning _, ?_, ?_⟩, ?_⟩
    · cases next with
      | none => simp [hlanes]
      | some next => simp [hlanes, hkept next rfl]
    · simpa [messagesOf_append, messagesOf_map, haccepted] using hpending
    · intro hchanged
      cases next with
      | none => simp [pendingFor, hrunning, hended rfl]
      | some next => simp at hchanged

theorem step_other {x : δ} {move : LaneMove δ μ} (hx : x ≠ move.destination) :
  (s.step move).1.running x = s.running x ∧ (s.step move).1.lanes x = s.lanes x
    ∧ ∀ event, messagesOf event x (s.step move).2 = []
  := by
  have hne : move.destination ≠ x := Ne.symm hx
  cases move with
  | dispatch d message =>
    simp only [LaneMove.destination] at hx hne
    simp only [step, FallbackLanes.dispatch]
    cases hlane : (s.lanes d).bind (s.lane? d) with
    | none => simp [update_of_ne hx, messagesOf, hne]
    | some lane =>
    by_cases hroom : lane.queue.length < fallbackLaneCapacity
    all_goals simp [hroom, replace, update_of_ne hx, messagesOf, hne]
  | task d id move =>
    simp only [LaneMove.destination] at hx hne
    simp only [step]
    cases hlane : s.lane? d id with
    | none => simp [messagesOf]
    | some lane =>
    by_cases hended : (lane.advance move).1 = none ∧ s.lanes d = some id
    all_goals simp [hended, replace, update_of_ne hx, messagesOf_map, hne]

/-- A move leaves every destination served. -/
theorem serves_step {move : LaneMove δ μ} (h : ∀ d, s.Serves log d) :
  ∀ d, (s.step move).1.Serves (log ++ (s.step move).2) d
  := by
  intro d
  by_cases hd : d = move.destination
  · subst hd
    cases move with
    | dispatch d message => exact ((h d).dispatch message).1
    | task d id move => exact ((h d).task id move).1
  · obtain ⟨lane, hrunning, hlanes, haccepted⟩ := h d
    obtain ⟨hrunning', hlanes', hnone⟩ := step_other (s := s) hd
    refine ⟨lane, hrunning'.trans hrunning, hlanes'.trans hlanes, ?_⟩
    rw [messagesOf_append, messagesOf_append, hnone, hnone, append_nil, append_nil, haccepted]

/-! ### What a task does by itself -/

/-- A lane under the steps of its task, until it has retired. -/
def laneMachine : Machine (Option (Lane μ)) TaskMove μ where
  step lane move := lane.elim (none, []) (·.advance move)

/-- A task that goes round: it looks at its queue if its timer has fired, receives and sends. -/
def rounds (n : ℕ) : List TaskMove :=
  (replicate n [.retire, .receive, .complete]).flatten

/-- Going round sends what is first in a lane, wherever its task stands. -/
theorem round_sends (lane : Option (Lane μ)) :
  laneMachine.outputs lane [.retire, .receive, .complete] = (lane.elim [] Lane.pending).take 1
    ∧ (laneMachine.run lane [.retire, .receive, .complete]).elim [] Lane.pending
      = (lane.elim [] Lane.pending).drop 1
  := by
  rcases lane with _ | ⟨id, _ | ⟨message, queue⟩, _ | sending | _⟩
  all_goals simp [Machine.outputs, laneMachine, Lane.advance, Lane.pending]

/-- Going round again and again sends what is in a lane, in order. -/
theorem rounds_send (lane : Option (Lane μ)) (n : ℕ) :
  laneMachine.outputs lane (rounds n) = (lane.elim [] Lane.pending).take n
    ∧ (laneMachine.run lane (rounds n)).elim [] Lane.pending
      = (lane.elim [] Lane.pending).drop n
  := by
  induction n generalizing lane with
  | zero => exact ⟨rfl, rfl⟩
  | succ n ih =>
    obtain ⟨hsent, hleft⟩ := round_sends lane
    obtain ⟨hsent', hleft'⟩ := ih (laneMachine.run lane [.retire, .receive, .complete])
    rw [rounds, replicate_succ, flatten_cons, ← rounds, Machine.run_append, hleft', hleft,
      drop_drop, Nat.add_comm n, take_add, ← hsent, ← hleft, ← hsent']
    simp [Machine.outputs]

/-- The lane of a destination moves as its task does. -/
theorem run_task {lane : Option (Lane μ)} {id : UInt64} (hid : ∀ l ∈ lane, l.id = id)
    (hrunning : s.running d = lane.toList) (moves : List TaskMove) :
  (machine.run s (moves.map (.task d id))).running d = (laneMachine.run lane moves).toList
    ∧ messagesOf .sent d (machine.outputs s (moves.map (.task d id)))
      = laneMachine.outputs lane moves
  := by
  induction moves generalizing s lane with
  | nil => exact ⟨hrunning, rfl⟩
  | cons move moves ih =>
    have hfound : s.lane? d id = lane := by
      cases lane with
      | none => simp [lane?, hrunning]
      | some lane => simp [lane?, hrunning, hid lane rfl]
    have hnext : (s.step (.task d id move)).1.running d = (laneMachine.step lane move).1.toList
        ∧ messagesOf .sent d (s.step (.task d id move)).2 = (laneMachine.step lane move).2
        ∧ ∀ l ∈ (laneMachine.step lane move).1, l.id = id := by
      cases lane with
      | none => simp [step, hfound, hrunning, laneMachine, messagesOf]
      | some lane =>
        obtain rfl := hid lane rfl
        simp only [step, hfound]
        exact ⟨replace_eq hrunning _, by simp [laneMachine, messagesOf_map],
          (lane.advance_spec move).2.1⟩
    obtain ⟨hrunning', hsent, hid'⟩ := hnext
    obtain ⟨hrun, houtputs⟩ := ih hid' hrunning'
    refine ⟨hrun, ?_⟩
    rw [Machine.outputs, map_cons, Machine.trace_cons, flatMap_cons, messagesOf_append]
    exact congrArg₂ _ hsent houtputs

/-- At every point of a run, what was accepted for a destination is what was sent to it, what is in
flight and what is queued; at most one of its lanes runs, and one leaves the map with nothing
pending.  Each time its task then goes round it sends what is first in the lane, and it ends with
all that was accepted sent. -/
theorem fallback_lanes (moves : List (LaneMove δ μ)) (d : δ) :
  let s := machine.run new moves
  let log := machine.outputs new moves
  messagesOf .accepted d log = messagesOf .sent d log ++ s.pendingFor d
    ∧ (s.running d).length ≤ 1
    ∧ (∀ move, s.lanes d ≠ none → (s.step move).1.lanes d ≠ s.lanes d → s.pendingFor d = [])
    ∧ ∀ lane ∈ s.running d, ∀ n,
      let after := (rounds n).map (.task d lane.id)
      messagesOf .sent d (machine.outputs s after) = (s.pendingFor d).take n
        ∧ ((s.pendingFor d).length ≤ n →
          messagesOf .sent d (log ++ machine.outputs s after) = messagesOf .accepted d log)
  := by
  intro s log
  have hserves : s.Serves log d :=
    @Machine.logged _ _ _ machine (fun log s => ∀ d, s.Serves log d)
      (fun _ _ _ h => serves_step h) new (fun _ => ⟨none, rfl, rfl, rfl⟩) moves d
  obtain ⟨lane, hrunning, -, haccepted⟩ := id hserves
  have hpending : s.pendingFor d = lane.elim [] Lane.pending := by
    rw [pendingFor, hrunning]
    cases lane
    all_goals simp
  refine ⟨?_, ?_, ?_, ?_⟩
  · rw [haccepted, hpending]
  · rw [hrunning]
    exact Option.length_toList_le
  · intro move hsome hchanged
    by_cases hd : d = move.destination
    · subst hd
      cases move with
      | dispatch d message => exact absurd ((hserves.dispatch message).2 hsome) hchanged
      | task d id move => exact (hserves.task id move).2 hchanged
    · exact absurd (step_other hd).2.1 hchanged
  · intro found hfound n after
    have hid : ∀ l ∈ lane, l.id = found.id := by
      rintro l rfl
      rw [hrunning, Option.toList_some, mem_singleton] at hfound
      rw [hfound]
    have hsent : messagesOf .sent d (machine.outputs s after) = (s.pendingFor d).take n := by
      rw [(run_task hid hrunning (rounds n)).2, (rounds_send lane n).1, hpending]
    refine ⟨hsent, fun hn => ?_⟩
    rw [messagesOf_append, hsent, take_of_length_le hn, haccepted, hpending]

end FallbackLanes

end Siphon.Transport
