import Mathlib.Algebra.Order.BigOperators.Group.List
import Siphon.Library.Run
import Siphon.Library.Utf8

/-!
# The send queue of a connection

Frames go through an unbounded channel whose octets are counted beside it: a sender reserves the
octets of its frame before it puts the frame in, and the receiver gives them back after it has taken
the frame out.
-/

namespace Siphon.Transport

open List

inductive ReceiverState where
  | open
  | closing
  | gone
deriving DecidableEq

/-- A send queue, with the frames of the senders that have reserved and not yet returned, and the
frame the receiver is taking. -/
structure SendQueue where
  limit : ℕ
  queued : ℤ
  channel : List Bytes
  reserved : List Bytes
  taken : Option Bytes
  receiver : ReceiverState

inductive QueueMove where
  /-- A sender that found the channel open reserves the octets of its frame. -/
  | reserve (frame : Bytes)
  /-- The sender at this place puts its frame into the channel, or finds it closed. -/
  | enqueue (place : ℕ)
  /-- The receiver takes the next frame, to write it or to discard it. -/
  | take
  | release
  /-- The receiver is dropped: it closes the channel and takes what is left. -/
  | close
  | drained

/-- A frame that goes into the channel or comes out of it. -/
inductive QueueOutput where
  | entered (frame : Bytes)
  | left (frame : Bytes)

namespace SendQueue

/-- A queue bounded by `limit` octets. -/
def new (limit : ℕ) : SendQueue :=
  ⟨limit, 0, [], [], none, .open⟩

def step (q : SendQueue) : QueueMove → SendQueue × List QueueOutput
  | .reserve frame =>
    if q.queued = 0 ∨ q.queued + frame.length ≤ q.limit then
      ({ q with queued := q.queued + frame.length, reserved := q.reserved ++ [frame] }, [])
    else (q, [])
  | .enqueue place =>
    match q.reserved[place]? with
    | none => (q, [])
    | some frame =>
      let q := { q with reserved := q.reserved.eraseIdx place }
      if q.receiver = .open then ({ q with channel := q.channel ++ [frame] }, [.entered frame])
      else ({ q with queued := q.queued - frame.length }, [])
  | .take =>
    match q.taken, q.channel with
    | none, frame :: rest => ({ q with channel := rest, taken := some frame }, [.left frame])
    | _, _ => (q, [])
  | .release =>
    match q.taken with
    | some frame => ({ q with queued := q.queued - frame.length, taken := none }, [])
    | none => (q, [])
  | .close => (if q.receiver = .open then { q with receiver := .closing } else q, [])
  | .drained =>
    (if q.receiver = .closing ∧ q.channel = [] ∧ q.taken = none then { q with receiver := .gone }
      else q, [])

def machine : Machine SendQueue QueueMove QueueOutput :=
  ⟨step⟩

/-- The frames whose octets are counted. -/
def outstanding (q : SendQueue) : List Bytes :=
  q.taken.toList ++ q.channel ++ q.reserved

end SendQueue

open SendQueue (outstanding new)

def octets (frames : List Bytes) : ℤ :=
  (frames.map fun frame => (frame.length : ℤ)).sum

def entered (log : List QueueOutput) : List Bytes :=
  log.filterMap fun
    | .entered frame => some frame
    | .left _ => none

def departed (log : List QueueOutput) : List Bytes :=
  log.filterMap fun
    | .left frame => some frame
    | .entered _ => none

theorem entered_append (log log' : List QueueOutput) :
  entered (log ++ log') = entered log ++ entered log'
  := filterMap_append

theorem departed_append (log log' : List QueueOutput) :
  departed (log ++ log') = departed log ++ departed log'
  := filterMap_append

/-! ### The count -/

theorem octets_cons (frame : Bytes) (frames : List Bytes) :
  octets (frame :: frames) = frame.length + octets frames
  := by
  simp [octets]

theorem octets_nonneg (frames : List Bytes) :
  0 ≤ octets frames
  := by
  induction frames with
  | nil => rfl
  | cons frame frames ih =>
  rw [octets_cons]
  omega

theorem octets_perm {frames frames' : List Bytes} (h : frames.Perm frames') :
  octets frames = octets frames'
  := (h.map _).sum_eq

theorem length_le_octets {frame : Bytes} {frames : List Bytes} (h : frame ∈ frames) :
  frame.length ≤ octets frames
  := by
  rw [octets_perm (perm_cons_erase h), octets_cons]
  have hnonneg := octets_nonneg (frames.erase frame)
  omega

/-- The count is that of the frames, and is over the limit for one frame alone. -/
structure Covers (limit : ℕ) (queued : ℤ) (frames : List Bytes) : Prop where
  eq : queued = octets frames
  excess : limit < queued → ∃ frame ∈ frames, queued = frame.length

namespace Covers

variable {limit : ℕ} {queued : ℤ} {frame : Bytes} {frames : List Bytes}

theorem perm {frames' : List Bytes} (h : Covers limit queued frames) (hperm : frames.Perm frames') :
  Covers limit queued frames'
  := by
  constructor
  · rw [h.eq, octets_perm hperm]
  · intro hover
    obtain ⟨frame, hmem, hone⟩ := h.excess hover
    exact ⟨frame, hperm.mem_iff.mp hmem, hone⟩

theorem add (h : Covers limit queued frames)
    (hroom : queued = 0 ∨ queued + frame.length ≤ limit) :
  Covers limit (queued + frame.length) (frame :: frames)
  := by
  constructor
  · rw [octets_cons, h.eq, add_comm]
  · intro hover
    rcases hroom with hzero | hroom
    · exact ⟨frame, mem_cons_self, by omega⟩
    · omega

theorem remove (h : Covers limit queued (frame :: frames)) :
  Covers limit (queued - frame.length) frames
  := by
  have heq := h.eq
  rw [octets_cons] at heq
  constructor
  · omega
  · intro hover
    obtain ⟨large, hmem, hone⟩ := h.excess (by omega)
    rcases mem_cons.mp hmem with rfl | hmem
    · omega
    · have hle := length_le_octets hmem
      exact ⟨large, hmem, by omega⟩

theorem exists_large (h : Covers limit queued frames) (hover : limit < queued) :
  ∃ frame ∈ frames, limit < frame.length ∧ ∀ other ∈ frames.erase frame, other = []
  := by
  obtain ⟨frame, hmem, hone⟩ := h.excess hover
  refine ⟨frame, hmem, by omega, ?_⟩
  intro other hother
  have heq := h.eq
  rw [octets_perm (perm_cons_erase hmem), octets_cons] at heq
  have hle := length_le_octets hother
  apply length_eq_zero_iff.mp
  omega

end Covers

/-- What holds of a queue after some steps. -/
structure Accounted (limit : ℕ) (log : List QueueOutput) (q : SendQueue) : Prop where
  bound : q.limit = limit
  covers : Covers limit q.queued q.outstanding
  order : entered log = departed log ++ q.channel
  gone : q.receiver = .gone → q.channel = [] ∧ q.taken = none

namespace Accounted

variable {limit : ℕ} {log : List QueueOutput} {q : SendQueue}

theorem step (h : Accounted limit log q) (move : QueueMove) :
  Accounted limit (log ++ (q.step move).2) (q.step move).1
  := by
  have hsame : Accounted limit (log ++ []) q := by rwa [append_nil]
  obtain ⟨hlimit, hcovers, horder, hgone⟩ := h
  cases move with
  | reserve frame =>
    rw [SendQueue.step]
    split
    · rename_i hroom
      rw [append_nil]
      refine ⟨hlimit, (hcovers.add (hlimit ▸ hroom)).perm ?_, horder, hgone⟩
      rw [outstanding, outstanding, ← append_assoc]
      apply (perm_append_singleton frame _).symm
    · exact hsame
  | enqueue place =>
    rw [SendQueue.step]
    split
    · exact hsame
    · rename_i frame hframe
      obtain ⟨hlt, rfl⟩ := List.getElem?_eq_some_iff.mp hframe
      have hperm := (getElem_cons_eraseIdx_perm hlt).symm.append_left (q.taken.toList ++ q.channel)
      dsimp only
      split
      · rename_i hopen
        refine ⟨hlimit, hcovers.perm ?_, ?_, ?_⟩
        · rw [outstanding, outstanding]
          simpa using hperm
        · rw [entered_append, departed_append, horder]
          simp [entered, departed]
        · simp [hopen]
      · rw [append_nil]
        exact ⟨hlimit, (hcovers.perm (hperm.trans perm_middle)).remove, horder, hgone⟩
  | take =>
    rw [SendQueue.step]
    split
    · rename_i frame rest htaken hchannel
      rw [outstanding, htaken, hchannel] at hcovers
      rw [hchannel] at horder hgone
      refine ⟨hlimit, hcovers, ?_, ?_⟩
      · rw [entered_append, departed_append, horder]
        simp [entered, departed]
      · intro hreceiver
        exact absurd (hgone hreceiver).1 (cons_ne_nil _ _)
    · exact hsame
  | release =>
    rw [SendQueue.step]
    split
    · rename_i frame htaken
      rw [outstanding, htaken] at hcovers
      rw [append_nil]
      exact ⟨hlimit, hcovers.remove, horder, fun hreceiver => ⟨(hgone hreceiver).1, rfl⟩⟩
    · exact hsame
  | close =>
    rw [SendQueue.step]
    split
    · rw [append_nil]
      exact ⟨hlimit, hcovers, horder, by simp⟩
    · exact hsame
  | drained =>
    rw [SendQueue.step]
    split
    · rename_i hdone
      rw [append_nil]
      exact ⟨hlimit, hcovers, horder, fun _ => hdone.2⟩
    · exact hsame

end Accounted

/-- Over every interleaving of the steps of senders and the receiver: the count is the octets of
the frames in the channel, reserved and being taken; it is not negative, and over the limit only for
one frame, all others being empty; frames leave in the order they entered; and nothing is counted
once the receiver is gone and every sender has returned. -/
theorem send_queue_exact (limit : ℕ) (moves : List QueueMove) :
  let q := SendQueue.machine.run (.new limit) moves
  let log := SendQueue.machine.outputs (.new limit) moves
  q.queued = octets q.channel + octets q.reserved + octets q.taken.toList
    ∧ 0 ≤ q.queued
    ∧ (limit < q.queued → ∃ frame ∈ q.outstanding, limit < frame.length
      ∧ ∀ other ∈ q.outstanding.erase frame, other = [])
    ∧ entered log = departed log ++ q.channel
    ∧ (q.receiver = .gone → q.reserved = [] → q.queued = 0)
  := by
  intro q log
  have h : Accounted limit log q :=
    Machine.logged (fun log q move h => h.step move)
      ⟨rfl, ⟨rfl, by simp [new]⟩, rfl, by simp [new]⟩ moves
  have heq := h.covers.eq
  refine ⟨?_, heq ▸ octets_nonneg _, h.covers.exists_large, h.order, ?_⟩
  · rw [heq]
    simp only [octets, outstanding, map_append, sum_append]
    omega
  · intro hreceiver hreserved
    obtain ⟨hchannel, htaken⟩ := h.gone hreceiver
    rw [heq, outstanding, hchannel, htaken, hreserved]
    rfl

end Siphon.Transport
