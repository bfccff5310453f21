import Siphon.Library.Run

/-!
# Waiting for the end of a recording

The event that a recording ended looks for a waiter and then is kept.  The wait for it looks for a
kept event, registers and looks once more.  These are the entries of one recording id, as each map
operation is on the entry of its id; the sweep before an event is kept spares what is within its
keeping time.
-/

namespace Siphon.RtpEngine

open List

/-- The next map operation of `recordingFinished`. -/
inductive FinishedPhase where
  | removeWaiter
  | retain
  | keep
  | done
deriving DecidableEq

/-- The next operation of `waitRecording`. -/
inductive WaitPhase (ε : Type) where
  | claim
  | register
  | reclaim
  | receive
  | unregister (outcome : Option ε)
  | returned (outcome : Option ε)

inductive Side where
  | event
  | wait

/-- Whether a waiter is registered, the kept event, what the waiter was sent, and the two calls. -/
structure Waiters (ε : Type) where
  recordings : Bool := false
  unclaimed : Option ε := none
  channel : Option ε := none
  event : FinishedPhase := .removeWaiter
  wait : WaitPhase ε := .claim

namespace Waiters

variable {ε : Type} (finished : ε) (s : Waiters ε)

def recordingFinished : Waiters ε :=
  match s.event with
  | .removeWaiter =>
    if s.recordings then { s with recordings := false, channel := some finished, event := .done }
    else { s with event := .retain }
  | .retain => { s with event := .keep }
  | .keep => { s with unclaimed := some finished, event := .done }
  | .done => s

/-- Nothing is received before it is sent, as the deadline is not reached. -/
def waitRecording : Waiters ε :=
  match s.wait, s.unclaimed, s.channel with
  | .claim, none, _ => { s with wait := .register }
  | .claim, some finished, _ => { s with unclaimed := none, wait := .returned (some finished) }
  | .register, _, _ => { s with recordings := true, wait := .reclaim }
  | .reclaim, none, _ => { s with wait := .receive }
  | .reclaim, some finished, _ => { s with unclaimed := none, wait := .unregister (some finished) }
  | .receive, _, none => s
  | .receive, _, some finished => { s with wait := .unregister (some finished) }
  | .unregister outcome, _, _ => { s with recordings := false, wait := .returned outcome }
  | .returned _, _, _ => s

/-- Whether the wait looks once more while the event has found no waiter and is not kept yet. -/
def crosses : Bool :=
  match s.wait, s.event with
  | .reclaim, .retain | .reclaim, .keep => true
  | _, _ => false

/-- Any interleaving of the two; the outputs are the looks that cross the event. -/
def machine : Machine (Waiters ε) Side Unit where
  step s
    | .event => (s.recordingFinished finished, [])
    | .wait => (s.waitRecording, if s.crosses then [()] else [])

/-- The event is kept as soon as it is over. -/
def Kept : Prop :=
  s.channel = none ∧ s.unclaimed = if s.event = .done then some finished else none

def Sent : Prop :=
  s.event = .done ∧ s.recordings = false ∧ s.unclaimed = none ∧ s.channel = some finished

/-- What is so at each place of the wait as long as the two have not missed each other. -/
def Met : Prop :=
  match s.wait with
  | .claim | .register => s.recordings = false ∧ s.Kept finished
  | .reclaim => s.recordings = true ∧ s.Kept finished ∨ s.Sent finished
  | .receive =>
    s.recordings = true ∧ s.event = .removeWaiter ∧ s.Kept finished ∨ s.Sent finished
  | .unregister outcome => s.event = .done ∧ s.unclaimed = none ∧ outcome = some finished
  | .returned outcome =>
    s.event = .done ∧ s.recordings = false ∧ s.unclaimed = none ∧ outcome = some finished

/-- The wait receives nothing: the event has passed it by. -/
def Missed : Prop :=
  s.wait = .receive ∧ s.channel = none ∧ s.event ≠ .removeWaiter

variable {finished : ε} {s : Waiters ε}

/-- Only a look that crosses the event misses it. -/
theorem met_step (h : s.Met finished) (side : Side) :
  let next := (machine finished).step s side
  if next.2 = [] then next.1.Met finished else next.1.Missed
  := by
  obtain ⟨recordings, unclaimed, channel, event, wait⟩ := s
  cases side with
  | event =>
    cases event <;> cases wait <;> simp_all [Met, Kept, Sent, machine, recordingFinished]
  | wait =>
    cases event <;> cases wait <;> cases unclaimed <;> cases channel <;>
      simp_all [Met, Kept, Sent, Missed, crosses, machine, waitRecording]

theorem missed_step (h : s.Missed) (side : Side) :
  ((machine finished).step s side).1.Missed
  := by
  obtain ⟨recordings, unclaimed, channel, event, wait⟩ := s
  obtain ⟨rfl, rfl, hevent⟩ := h
  cases side <;> cases event <;> simp_all [Missed, machine, recordingFinished, waitRecording]

theorem returned_of_met (h : s.Met finished)
    (hover : ∀ side, ((machine finished).step s side).1 = s) :
  s.wait = .returned (some finished) ∧ s.recordings = false ∧ s.unclaimed = none
  := by
  have hevent := hover .event
  have hwait := hover .wait
  obtain ⟨recordings, unclaimed, channel, event, wait⟩ := s
  cases event <;> cases wait <;> cases unclaimed <;> cases channel <;>
    simp_all [Met, Kept, Sent, machine, recordingFinished, waitRecording]

/-- Once neither call has a step left, the wait has returned the event and nothing is left of the
id, exactly when the wait did not look once more between the two looks of the event. -/
theorem recording_reaches_waiter (finished : ε) (sides : List Side)
    (hover : ∀ side, ((machine finished).step ((machine finished).run {} sides) side).1
      = (machine finished).run {} sides) :
  let s := (machine finished).run {} sides
  s.wait = .returned (some finished) ∧ s.recordings = false ∧ s.unclaimed = none
    ↔ (machine finished).outputs {} sides = []
  := by
  have hrun := @Machine.logged _ _ _ (machine finished)
    (fun log s => if log = [] then s.Met finished else s.Missed) ?_ {} ⟨rfl, rfl, rfl⟩ sides
  · intro s
    split at hrun
    · rename_i hnone
      exact iff_of_true (returned_of_met hrun hover) hnone
    · rename_i hsome
      refine iff_of_false ?_ hsome
      rintro ⟨hreturned, -⟩
      cases hreturned.symm.trans hrun.1
  intro log s side h
  split at h
  · rename_i hlog
    rw [hlog]
    exact met_step h side
  · rename_i hlog
    rw [if_neg (by simp [hlog])]
    exact missed_step h side

theorem recording_reached :
  (machine ()).outputs {} [.wait, .wait, .wait, .event, .wait, .wait] = []
  := (recording_reaches_waiter () _ (by rintro (_ | _) <;> rfl)).mp ⟨rfl, rfl, rfl⟩

/-- The wait looks twice between the event's look for a waiter and its being kept. -/
theorem recording_missed :
  let s := (machine ()).run {} [.event, .wait, .wait, .wait, .event, .event]
  (∀ side, ((machine ()).step s side).1 = s) ∧ s.wait = .receive ∧ s.unclaimed = some ()
  := ⟨by rintro (_ | _) <;> rfl, rfl, rfl⟩

end Waiters

end Siphon.RtpEngine
