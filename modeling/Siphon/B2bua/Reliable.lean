import Siphon.Library.Run
import Siphon.Library.Words
import Siphon.Sip.Message

/-!
# Reliable provisionals of the A-leg

The provisional responses the caller gets reliably: which number each takes, which one waits for its
PRACK, and which provisionals and 2xx wait behind it.
-/

namespace Siphon.B2bua

def rseqCeiling : ℕ := 0x7FFFFFFF

structure Queued where
  response : SipMessage
  reliable : Bool
  link : Option ℕ

/-- A provisional to put on the wire, with its number if it is reliable. -/
structure ProvisionalSend where
  response : SipMessage
  rseq : Option ℕ
deriving DecidableEq

inductive Offered where
  | send (send : ProvisionalSend)
  | queued
  /-- A final response has gone to the caller. -/
  | afterFinal

inductive AnswerStep (α : Type) where
  | send (answer : α)
  | held

inductive PrackOutcome (α : Type) where
  | acknowledged (rseq : ℕ) (release : List ProvisionalSend) (answer : Option α) (link : Option ℕ)
  | alreadyAcknowledged
  | unmatched

structure Unacknowledged where
  rseq : ℕ
  carriesSdp : Bool
  sentAt : ℕ
  link : Option ℕ

/-- The reliable provisionals of the caller's dialog, with its 2xx of the type `α`. -/
structure ALegReliableProvisionals (α : Type) where
  inviteCseq : Option ℕ := none
  firstRseq : Option ℕ := none
  lastRseq : Option ℕ := none
  unacknowledged : Option Unacknowledged := none
  highestAcknowledged : Option ℕ := none
  queued : List Queued := []
  heldAnswer : Option α := none
  finished : Bool := false
  answerAcknowledged : Bool := false

/-- The first number of a dialog, from a draw of `next_rseq`. -/
def initialRseq (draw : UInt32) : ℕ :=
  max (draw &&& 0x3FFFFFFF).toNat 1

def carriesSessionDescription (response : SipMessage) : Bool :=
  !response.body.isEmpty

def cseqNumber (response : SipMessage) : Option ℕ := do
  let cseq ← response.headers.get "CSeq".toList
  let number ← (Slice.words Text.isWhitespace cseq).head?
  Decimal.parse (2 ^ 32) number

namespace ALegReliableProvisionals

variable {α : Type} (state : ALegReliableProvisionals α)

/-- A final response goes to the caller: what waited is dropped, and a held 2xx returned. -/
def finish : Option α × ALegReliableProvisionals α :=
  (state.heldAnswer, { state with finished := true, queued := [], heldAnswer := none })

def answerMayGo : Bool :=
  state.queued.isEmpty && !state.unacknowledged.any fun pending => pending.carriesSdp

/-- The caller's 2xx is ready: it goes now or is held. -/
def answer (state : ALegReliableProvisionals α) (answer : α) :
    AnswerStep α × ALegReliableProvisionals α :=
  if state.finished || state.answerMayGo then (.send answer, state.finish.2)
  else (.held, { state with heldAnswer := some answer })

/-- The number the next reliable provisional takes: one more than the last, up to the ceiling. -/
def nextRseq (draw : UInt32) : Option ℕ :=
  match state.lastRseq with
  | some last => if last + 1 ≤ rseqCeiling then some (last + 1) else none
  | none => some (initialRseq draw)

/-- Number and record a provisional that goes out now. -/
def dispatch (response : SipMessage) (reliable : Bool)
    (link : Option ℕ) (now : ℕ) (draw : UInt32) : ProvisionalSend × ALegReliableProvisionals α :=
  let state := if state.inviteCseq.isNone then { state with inviteCseq := cseqNumber response }
    else state
  match (state.nextRseq draw).filter fun _ => reliable with
  | none => (⟨response, none⟩, state)
  | some rseq =>
    (⟨response, some rseq⟩, { state with
      firstRseq := state.firstRseq.or (some rseq)
      lastRseq := some rseq
      unacknowledged := some ⟨rseq, carriesSessionDescription response, now, link⟩ })

def offer (response : SipMessage) (reliable : Bool)
    (link : Option ℕ) (now : ℕ) (draw : UInt32) : Offered × ALegReliableProvisionals α :=
  if state.finished then (.afterFinal, state)
  else if !state.queued.isEmpty || (reliable && state.unacknowledged.isSome) then
    (.queued, { state with queued := state.queued ++ [⟨response, reliable, link⟩] })
  else
    let (send, state) := state.dispatch response reliable link now draw
    (.send send, state)

/-- Dispatch from the queue, up to and including the first that takes a number. -/
def releaseQueued (now : ℕ) (draw : UInt32) (state : ALegReliableProvisionals α) :
    List Queued → List ProvisionalSend × ALegReliableProvisionals α
  | [] => ([], { state with queued := [] })
  | next :: rest =>
    let (send, state) := state.dispatch next.response next.reliable next.link now draw
    if send.rseq.isSome then ([send], { state with queued := rest })
    else
      let (release, state) := releaseQueued now draw state rest
      (send :: release, state)

/-- A PRACK from the caller: its number and the `CSeq` number it names. -/
def acknowledge (rseq cseqNumber now : ℕ) (draw : UInt32) :
    PrackOutcome α × ALegReliableProvisionals α :=
  if state.inviteCseq ≠ some cseqNumber then (.unmatched, state)
  else
    match state.unacknowledged.filter fun pending => pending.rseq = rseq with
    | none =>
      let acknowledgedBefore := (state.firstRseq.any fun first => first ≤ rseq) &&
        state.highestAcknowledged.any fun highest => rseq ≤ highest
      (if acknowledgedBefore then .alreadyAcknowledged else .unmatched, state)
    | some acknowledged =>
      let state := { state with
        unacknowledged := none
        answerAcknowledged := state.answerAcknowledged || acknowledged.carriesSdp
        highestAcknowledged := some rseq }
      let (release, state) := releaseQueued now draw state state.queued
      if state.heldAnswer.isSome && state.answerMayGo then
        (.acknowledged rseq release state.heldAnswer acknowledged.link, state.finish.2)
      else (.acknowledged rseq release none acknowledged.link, state)

end ALegReliableProvisionals

/-! ### Runs -/

/-- What happens on the A-leg. -/
inductive ReliableInput (α : Type) where
  | offer (response : SipMessage) (reliable : Bool) (link : Option ℕ) (now : ℕ) (draw : UInt32)
  | answer (answer : α)
  | acknowledge (rseq cseqNumber now : ℕ) (draw : UInt32)
  | finish

inductive ReliableEvent (α : Type) where
  /-- A provisional was taken for the caller. -/
  | offered (response : SipMessage)
  | sent (send : ProvisionalSend)
  | acknowledged (rseq : ℕ)
  | alreadyAcknowledged (rseq : ℕ)
  | unmatched (rseq : ℕ)
  /-- The 2xx left. -/
  | answered (answer : α)
deriving DecidableEq

section

variable {α : Type}

def Offered.events (response : SipMessage) : Offered → List (ReliableEvent α)
  | .send provisional => [.offered response, .sent provisional]
  | .queued => [.offered response]
  | .afterFinal => []

def AnswerStep.events : AnswerStep α → List (ReliableEvent α)
  | .send answer => [.answered answer]
  | .held => []

def PrackOutcome.events (rseq : ℕ) : PrackOutcome α → List (ReliableEvent α)
  | .acknowledged rseq release answer _ =>
    .acknowledged rseq :: release.map .sent ++ answer.toList.map .answered
  | .alreadyAcknowledged => [.alreadyAcknowledged rseq]
  | .unmatched => [.unmatched rseq]

def reliableMachine :
    Machine (ALegReliableProvisionals α) (ReliableInput α) (ReliableEvent α) where
  step state
    | .offer response reliable link now draw =>
      let (offered, state) := state.offer response reliable link now draw
      (state, offered.events response)
    | .answer answer =>
      let (step, state) := state.answer answer
      (state, step.events)
    | .acknowledge rseq cseqNumber now draw =>
      let (outcome, state) := state.acknowledge rseq cseqNumber now draw
      (state, outcome.events rseq)
    | .finish => (state.finish.2, [])

end

end Siphon.B2bua
