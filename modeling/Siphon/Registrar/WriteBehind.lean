import Siphon.Library.IndexMap
import Siphon.Library.Run

/-!
# The write-behind queue

The latest desired state of each key on its way to a store: writers draw a number for a write and
enqueue it later, and the drainer offers it to the store in batches.  A write that the store cannot
encode is dropped, and so is all that is left or comes when the drainer has ended.  Times are in
milliseconds.
-/

namespace Siphon.WriteBehind

variable {κ ω : Type} [DecidableEq κ]

def writeConcurrency : ℕ := 128

def initialBackoff : ℕ := 100

def maxBackoff : ℕ := 5000

def appliedRetention : ℕ := 5000

def pruneInterval : ℕ := 1000

structure PendingWrite (ω : Type) where
  write : ω
  sequence : ℕ
  since : ℕ
deriving DecidableEq

/-- The newer of two writes, waiting since the first. -/
def PendingWrite.newer (held write : PendingWrite ω) : PendingWrite ω :=
  if held.sequence ≤ write.sequence then
    { held with write := write.write, sequence := write.sequence }
  else held

/-- A pass over the backlog: the writes refused so far, whether there were any, and whether the pass
stops. -/
structure Flush (κ ω : Type) where
  refused : List (κ × PendingWrite ω) := []
  failed : Bool := false
  stopped : Bool := false

structure Queue (κ ω : Type) where
  sequence : ℕ := 0
  pending : IndexMap κ (PendingWrite ω)
  backlog : IndexMap κ (PendingWrite ω)
  /-- The numbers of the writes applied lately, and when they were. -/
  applied : IndexMap κ (ℕ × ℕ)
  prunedAt : ℕ
  backoff : ℕ := initialBackoff
  retryAt : Option ℕ := none
  flush : Option (Flush κ ω) := none
  /-- The drainer has ended. -/
  closed : Bool := false

/-- What the store makes of a write. -/
inductive Outcome where
  | applied
  | unencodable
  | refused
deriving DecidableEq

structure Answer (κ : Type) where
  key : κ
  sequence : ℕ
  outcome : Outcome
  time : ℕ
deriving DecidableEq

/-- A result of a batch: a write of a key, and what the store made of it. -/
abbrev Result (κ ω : Type) := (κ × PendingWrite ω) × Outcome

def answers (results : List (Result κ ω)) (now : ℕ) : List (Answer κ) :=
  results.map fun result => ⟨result.1.1, result.1.2.sequence, result.2, now⟩

namespace Queue

variable (queue : Queue κ ω)

/-- Make a write the desired state of a key, unless a newer one waits. -/
def enqueue (key : κ) (write : ω) (sequence now : ℕ) : Queue κ ω :=
  let pending : PendingWrite ω := ⟨write, sequence, now⟩
  { queue with pending := queue.pending.upsert key pending (·.newer pending) }

/-- Forget the numbers of the writes that were applied long ago, once in a while. -/
def prune (now : ℕ) : Queue κ ω :=
  if pruneInterval ≤ now - queue.prunedAt then
    { queue with
      applied := queue.applied.retain fun record => now - record.2 < appliedRetention
      prunedAt := now }
  else queue

/-- Whether a newer write than this one is remembered. -/
def isStale (key : κ) (write : PendingWrite ω) : Bool :=
  (queue.applied.get? key).any fun record => write.sequence < record.1

/-- Take the writes that wait into the backlog. -/
def absorb (now : ℕ) : Queue κ ω :=
  let taken := queue.pending.entries
  let queue := { queue with pending := .empty }.prune now
  { queue with
    backlog := queue.backlog.merge (fun key write => !queue.isStale key write) .newer taken }

/-- Begin a pass, unless a retry is not due yet. -/
def attempt (now : ℕ) : Queue κ ω :=
  if queue.closed || queue.retryAt.isSome || queue.flush.isSome then queue
  else { queue.absorb now with flush := some {} }

/-- Go on with a pass: what the store refused is offered again, but not in this pass. -/
def settle (flush : Flush κ ω) (results : List (Result κ ω)) (now : ℕ) : Queue κ ω :=
  let applied := (results.filter (·.2 = .applied)).map fun result =>
    (result.1.1, (result.1.2.sequence, now))
  let refused := (results.filter (·.2 = .refused)).map Prod.fst
  let failed := flush.failed || !refused.isEmpty
  { queue with
    backlog := queue.backlog.removeAll (results.map fun result => result.1.1)
    applied := queue.applied.extend applied
    flush := some ⟨flush.refused ++ refused, failed, applied.isEmpty && failed⟩ }

/-- Offer the store the writes of some keys, the first that the backlog yields; a result it does not
give is a refusal. -/
def batch (keys : List κ) (outcomes : List Outcome) (now : ℕ) : Queue κ ω × List (Answer κ) :=
  match queue.flush with
  | none => (queue, [])
  | some flush =>
    if flush.stopped then (queue, [])
    else
      let batch := (keys.dedup.take writeConcurrency).filterMap fun key =>
        (queue.backlog.get? key).map (key, ·)
      let results := batch.zip (outcomes ++ List.replicate batch.length .refused)
      (queue.settle flush results now, answers results now)

/-- End a pass: what was refused goes back, and the next attempt waits if anything was. -/
def endFlush (now : ℕ) : Queue κ ω :=
  match queue.flush with
  | none => queue
  | some flush =>
    if queue.backlog.entries.isEmpty || flush.stopped then
      let queue := { queue with backlog := queue.backlog.extend flush.refused, flush := none }
      if flush.failed then
        { queue with
          retryAt := some (now + queue.backoff), backoff := min (2 * queue.backoff) maxBackoff }
      else { queue with backoff := initialBackoff }
    else queue

def retry (now : ℕ) : Queue κ ω :=
  if queue.retryAt.any (· ≤ now) then { queue with retryAt := none } else queue

/-- Every handle is gone: the last attempt does not wait. -/
def finish : Queue κ ω :=
  { queue with retryAt := none }

/-- The drainer ends, however it does: what is left is dropped. -/
def drop : Queue κ ω :=
  { queue with closed := true, pending := .empty, backlog := .empty, flush := none }

end Queue

/-! ### Writers and the store -/

/-- A number that a writer has drawn for a write of a key. -/
structure Draw (κ : Type) where
  sequence : ℕ
  key : κ
  time : ℕ
deriving DecidableEq

/-- The queue with what has happened around it: the numbers drawn, those whose writes were enqueued,
and the answers of the store. -/
structure World (κ ω : Type) where
  queue : Queue κ ω
  clock : ℕ
  draws : List (Draw κ) := []
  enqueued : List (Draw κ) := []
  log : List (Answer κ) := []

inductive Action (κ ω : Type) where
  | draw (key : κ)
  /-- A writer that saw the queue closed drops its write; it looks before it locks the map. -/
  | enqueue (draw : Draw κ) (write : ω) (sawClosed : Bool)
  | attempt
  | batch (keys : List κ) (outcomes : List Outcome)
  | endFlush
  | retry
  | finish
  | drop

/-- An action at a time.  A number is used for one write, enqueued within the retention period. -/
def World.act (world : World κ ω) : Action κ ω → World κ ω
  | .draw key =>
    let sequence := world.queue.sequence + 1
    { world with
      queue := { world.queue with sequence := sequence }
      draws := world.draws ++ [⟨sequence, key, world.clock⟩] }
  | .enqueue draw write sawClosed =>
    if draw ∈ world.draws ∧ draw ∉ world.enqueued ∧
        world.clock ≤ draw.time + appliedRetention ∧ (sawClosed && world.queue.closed) = false then
      { world with
        queue := world.queue.enqueue draw.key write draw.sequence world.clock
        enqueued := world.enqueued ++ [draw] }
    else world
  | .attempt => { world with queue := world.queue.attempt world.clock }
  | .batch keys outcomes =>
    let (queue, answers) := world.queue.batch keys outcomes world.clock
    { world with queue := queue, log := world.log ++ answers }
  | .endFlush => { world with queue := world.queue.endFlush world.clock }
  | .retry => { world with queue := world.queue.retry world.clock }
  | .finish => { world with queue := world.queue.finish }
  | .drop => { world with queue := world.queue.drop }

/-- Time passes before each action. -/
def machine : Machine (World κ ω) (ℕ × Action κ ω) Empty where
  step world input := ({ world with clock := world.clock + input.1 }.act input.2, [])

def World.new (clock : ℕ) : World κ ω where
  queue := { pending := .empty, backlog := .empty, applied := .empty, prunedAt := clock }
  clock := clock

end Siphon.WriteBehind
