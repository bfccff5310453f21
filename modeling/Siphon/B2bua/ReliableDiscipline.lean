import Siphon.B2bua.Reliable

/-!
# The discipline of reliable provisionals

What the events of the A-leg have been and what the state holds fit together: the numbers run on by
one, all but the one awaited are acknowledged, and what was offered has been sent or waits in order.
-/

namespace Siphon.B2bua

open List ReliableEvent PrackOutcome
open ALegReliableProvisionals (releaseQueued answerMayGo dispatch)

variable {α : Type}

/-! ### What the events say -/

variable (log : List (ReliableEvent α))

def offeredResponses : List SipMessage :=
  log.filterMap fun
    | .offered response => some response
    | _ => none

def sentResponses : List SipMessage :=
  log.filterMap fun
    | .sent send => some send.response
    | _ => none

/-- The numbers of the reliable ones. -/
def sentRseqs : List ℕ :=
  log.filterMap fun
    | .sent send => send.rseq
    | _ => none

/-- The numbers of the reliable ones with a session description. -/
def sdpRseqs : List ℕ :=
  log.filterMap fun
    | .sent send => if carriesSessionDescription send.response then send.rseq else none
    | _ => none

def acknowledgedRseqs : List ℕ :=
  log.filterMap fun
    | .acknowledged rseq => some rseq
    | _ => none

variable {log : List (ReliableEvent α)} {state : ALegReliableProvisionals α}

section

variable (log log' : List (ReliableEvent α))

@[simp] theorem offeredResponses_append :
  offeredResponses (log ++ log') = offeredResponses log ++ offeredResponses log'
  := filterMap_append

@[simp] theorem sentResponses_append :
  sentResponses (log ++ log') = sentResponses log ++ sentResponses log'
  := filterMap_append

@[simp] theorem sentRseqs_append :
  sentRseqs (log ++ log') = sentRseqs log ++ sentRseqs log'
  := filterMap_append

@[simp] theorem sdpRseqs_append :
  sdpRseqs (log ++ log') = sdpRseqs log ++ sdpRseqs log'
  := filterMap_append

@[simp] theorem acknowledgedRseqs_append :
  acknowledgedRseqs (log ++ log') = acknowledgedRseqs log ++ acknowledgedRseqs log'
  := filterMap_append

end

structure Numbered (log : List (ReliableEvent α)) (state : ALegReliableProvisionals α) : Prop where
  /-- All numbers but the one awaited are acknowledged, in their order. -/
  unacknowledged : sentRseqs log =
    acknowledgedRseqs log ++ (state.unacknowledged.map Unacknowledged.rseq).toList
  consecutive : ∃ first, sentRseqs log = List.range' first (sentRseqs log).length
  bounds : ∀ rseq ∈ sentRseqs log, 1 ≤ rseq ∧ rseq ≤ rseqCeiling
  first : state.firstRseq = (sentRseqs log).head?
  last : state.lastRseq = (sentRseqs log).getLast?
  highest : state.highestAcknowledged = (acknowledgedRseqs log).getLast?
  sdp : ∀ rseq ∈ sdpRseqs log, rseq ∈ acknowledgedRseqs log ∨
    ∃ pending, state.unacknowledged = some pending ∧ pending.rseq = rseq ∧ pending.carriesSdp = true

theorem Numbered.append (h : Numbered log state) (log' : List (ReliableEvent α))
    (hsent : sentRseqs log' = []) (hsdp : sdpRseqs log' = []) (hack : acknowledgedRseqs log' = []) :
  Numbered (log ++ log') state
  := by
  obtain ⟨h1, h2, h3, h4, h5, h6, h7⟩ := h
  constructor <;> simp only [sentRseqs_append, sdpRseqs_append, acknowledgedRseqs_append, hsent,
    hsdp, hack, append_nil] <;> assumption

theorem Numbered.congr (h : Numbered log state) {next : ALegReliableProvisionals α}
    (hunacknowledged : next.unacknowledged = state.unacknowledged)
    (hfirst : next.firstRseq = state.firstRseq) (hlast : next.lastRseq = state.lastRseq)
    (hhighest : next.highestAcknowledged = state.highestAcknowledged) :
  Numbered log next
  where
  unacknowledged := by rw [hunacknowledged, h.unacknowledged]
  consecutive := h.consecutive
  bounds := h.bounds
  first := hfirst.trans h.first
  last := hlast.trans h.last
  highest := hhighest.trans h.highest
  sdp := by
    rw [hunacknowledged]
    exact h.sdp

/-! ### Everything in step -/

/-- What was offered has been sent or waits. -/
structure Ordered (log : List (ReliableEvent α)) (state : ALegReliableProvisionals α) : Prop
    extends Numbered log state where
  order : sentResponses log ++ state.queued.map Queued.response <+: offeredResponses log
  /-- Nothing is dropped before a final response. -/
  all : state.finished = false →
    sentResponses log ++ state.queued.map Queued.response = offeredResponses log
  /-- What is queued waits for a PRACK. -/
  queueAwaits : state.finished = false → state.queued ≠ [] → state.unacknowledged.isSome = true
  /-- Nothing waits after a final response. -/
  drained : state.finished = true → state.queued = [] ∧ state.heldAnswer = none

structure Disciplined (log : List (ReliableEvent α)) (state : ALegReliableProvisionals α) : Prop
    extends Ordered log state where
  /-- A 2xx that is held waits for a PRACK. -/
  answerAwaits : state.finished = false → state.heldAnswer.isSome = true →
    state.unacknowledged.isSome = true

variable (release : List ProvisionalSend)

@[simp] theorem sentResponses_map_sent :
  sentResponses (release.map sent : List (ReliableEvent α)) =
    release.map ProvisionalSend.response
  := by
  simp [sentResponses]

theorem Ordered.finish (h : Ordered log state) :
  Disciplined log state.finish.2
  where
  toNumbered := h.toNumbered.congr rfl rfl rfl rfl
  order := by
    rw [ALegReliableProvisionals.finish, map_nil, append_nil]
    apply (prefix_append _ _).trans h.order
  all := by simp [ALegReliableProvisionals.finish]
  queueAwaits := by simp [ALegReliableProvisionals.finish]
  drained := by simp [ALegReliableProvisionals.finish]
  answerAwaits := by simp [ALegReliableProvisionals.finish]

theorem Ordered.isSome_of_answerMayGo (h : Ordered log state) (hfinished : state.finished = false)
    (hstay : state.answerMayGo = false) :
  state.unacknowledged.isSome = true
  := by
  rw [answerMayGo, Bool.and_eq_false_iff] at hstay
  rcases hstay with hqueued | hpending
  · apply h.queueAwaits hfinished
    simpa using hqueued
  · rw [Bool.not_eq_false', Option.any_eq_true] at hpending
    obtain ⟨pending, hpending, -⟩ := hpending
    rw [hpending, Option.isSome_some]

theorem Disciplined.append (h : Disciplined log state) (log' : List (ReliableEvent α))
    (hoffered : offeredResponses log' = []) (hresponses : sentResponses log' = [])
    (hsent : sentRseqs log' = []) (hsdp : sdpRseqs log' = []) (hack : acknowledgedRseqs log' = []) :
  Disciplined (log ++ log') state
  where
  toNumbered := h.toNumbered.append log' hsent hsdp hack
  order := by
    rw [sentResponses_append, offeredResponses_append, hoffered, hresponses, append_nil, append_nil]
    exact h.order
  all := by
    rw [sentResponses_append, offeredResponses_append, hoffered, hresponses, append_nil, append_nil]
    exact h.all
  queueAwaits := h.queueAwaits
  drained := h.drained
  answerAwaits := h.answerAwaits

theorem Disciplined.answer (h : Disciplined log state) (answer : α) :
  Disciplined (log ++ (state.answer answer).1.events) (state.answer answer).2
  := by
  rw [ALegReliableProvisionals.answer]
  split
  · apply h.toOrdered.finish.append _ rfl rfl rfl rfl rfl
  rename_i hstay
  rw [Bool.or_eq_true, not_or, Bool.not_eq_true, Bool.not_eq_true] at hstay
  rw [AnswerStep.events, append_nil]
  have hnumbered : Numbered log { state with heldAnswer := some answer } :=
    h.toNumbered.congr rfl rfl rfl rfl
  refine ⟨⟨hnumbered, h.order, h.all, h.queueAwaits, ?_⟩, ?_⟩
  · intro hfinished
    rw [hstay.1] at hfinished
    exact absurd hfinished (by decide)
  · intro hfinished _
    apply h.isSome_of_answerMayGo hfinished hstay.2

/-! ### Dispatching -/

theorem initialRseq_bounds (draw : UInt32) :
  1 ≤ initialRseq draw ∧ initialRseq draw ≤ rseqCeiling
  := by
  have hand : (draw &&& 0x3FFFFFFF).toNat ≤ 0x3FFFFFFF := by
    apply Nat.and_le_right
  rw [initialRseq, rseqCeiling]
  omega

theorem Numbered.nextRseq (h : Numbered log state) {rseq : ℕ} {draw : UInt32}
    (hnext : state.nextRseq draw = some rseq) :
  (∃ first, sentRseqs log ++ [rseq] = range' first (sentRseqs log ++ [rseq]).length) ∧
    1 ≤ rseq ∧ rseq ≤ rseqCeiling
  := by
  rw [ALegReliableProvisionals.nextRseq, h.last] at hnext
  obtain ⟨first, hrange⟩ := h.consecutive
  generalize (sentRseqs log).length = n at hrange
  rw [hrange] at hnext ⊢
  cases n with
  | zero =>
    simp only [range'_zero, getLast?_nil, Option.some_inj] at hnext
    subst hnext
    exact ⟨⟨_, rfl⟩, initialRseq_bounds draw⟩
  | succ n =>
    rw [getLast?_range', if_neg (Nat.succ_ne_zero n)] at hnext
    dsimp only at hnext
    split at hnext
    · rename_i hle
      have hrseq : rseq = first + (n + 1) := by
        rw [Option.some_inj] at hnext
        omega
      refine ⟨⟨first, ?_⟩, by omega⟩
      rw [hrseq, length_append, length_range', length_singleton]
      exact range'_1_concat.symm
    · simp at hnext

section

variable (state : ALegReliableProvisionals α) (response : SipMessage) (reliable : Bool)
  (link : Option ℕ) (now : ℕ) (draw : UInt32)

theorem dispatch_cases :
  ∃ inviteCseq, state.dispatch response reliable link now draw =
      (⟨response, none⟩, { state with inviteCseq := inviteCseq }) ∨
    ∃ rseq, reliable = true ∧ state.nextRseq draw = some rseq ∧
      state.dispatch response reliable link now draw = (⟨response, some rseq⟩, { state with
        inviteCseq := inviteCseq
        firstRseq := state.firstRseq.or (some rseq)
        lastRseq := some rseq
        unacknowledged := some ⟨rseq, carriesSessionDescription response, now, link⟩ })
  := by
  have hnext : ∀ cseq, ALegReliableProvisionals.nextRseq { state with inviteCseq := cseq } draw =
      state.nextRseq draw := fun _ => rfl
  refine ⟨if state.inviteCseq.isNone then cseqNumber response else state.inviteCseq, ?_⟩
  have hstate : (if state.inviteCseq.isNone then
      { state with inviteCseq := cseqNumber response } else state) =
      { state with inviteCseq := if state.inviteCseq.isNone then cseqNumber response
        else state.inviteCseq } := by
    split <;> rfl
  rw [dispatch, hstate]
  rw [hnext]
  cases state.nextRseq draw with
  | none => apply Or.inl rfl
  | some rseq =>
  cases reliable
  · apply Or.inl rfl
  · apply Or.inr ⟨rseq, rfl, rfl, rfl⟩

theorem dispatch_frame :
  let send := (state.dispatch response reliable link now draw).1
  let next := (state.dispatch response reliable link now draw).2
  send.response = response ∧ next.queued = state.queued ∧ next.heldAnswer = state.heldAnswer ∧
    next.finished = state.finished ∧
    (send.rseq.isSome = false → next.unacknowledged = state.unacknowledged) ∧
    (send.rseq.isSome = true → next.unacknowledged.isSome = true)
  := by
  obtain ⟨inviteCseq, heq | ⟨rseq, -, -, heq⟩⟩ :=
    dispatch_cases state response reliable link now draw
  · rw [heq]
    simp
  · rw [heq]
    simp

end

/-- A provisional that goes out keeps the numbers in step, if a reliable one awaits nothing. -/
theorem Numbered.dispatch (h : Numbered log state) (response : SipMessage) {reliable : Bool}
    (hfree : reliable = true → state.unacknowledged = none) (link : Option ℕ) (now : ℕ)
    (draw : UInt32) :
  Numbered (log ++ [.sent (state.dispatch response reliable link now draw).1])
    (state.dispatch response reliable link now draw).2
  := by
  obtain ⟨inviteCseq, heq | ⟨rseq, hreliable, hnext, heq⟩⟩ :=
    dispatch_cases state response reliable link now draw
  · rw [heq]
    have hlog := h.append [.sent ⟨response, none⟩] rfl (by simp [sdpRseqs]) rfl
    exact hlog.congr rfl rfl rfl rfl
  rw [heq]
  have hnone := hfree hreliable
  obtain ⟨hconsecutive, hbounds⟩ := h.nextRseq hnext
  have hsent : sentRseqs (log ++ [.sent ⟨response, some rseq⟩]) = sentRseqs log ++ [rseq] :=
    sentRseqs_append _ _
  have hack : acknowledgedRseqs (log ++ [.sent ⟨response, some rseq⟩]) =
      acknowledgedRseqs log := by
    simp [acknowledgedRseqs]
  have hall : sentRseqs log = acknowledgedRseqs log := by
    rw [h.unacknowledged, hnone]
    simp
  constructor
  · rw [hsent, hack, hall]
    rfl
  · rw [hsent]
    exact hconsecutive
  · rw [hsent]
    intro r hr
    rcases mem_append.mp hr with hr | hr
    · exact h.bounds r hr
    · rw [mem_singleton.mp hr]
      exact hbounds
  · rw [hsent, head?_append]
    rw [h.first]
    rfl
  · rw [hsent, getLast?_append]
    rfl
  · rw [hack]
    exact h.highest
  · rw [hack]
    intro r hr
    rw [sdpRseqs_append, mem_append] at hr
    rcases hr with hr | hr
    · rcases h.sdp r hr with hr | ⟨pending, hpending, -⟩
      · apply Or.inl hr
      · rw [hnone] at hpending
        simp at hpending
    · apply Or.inr
      refine ⟨_, rfl, ?_⟩
      cases hcarries : carriesSessionDescription response <;> simp [sdpRseqs, hcarries] at hr
      exact ⟨hr.symm, rfl⟩

theorem Numbered.releaseQueued (h : Numbered log state) (hfree : state.unacknowledged = none)
    (now : ℕ) (draw : UInt32) (queue : List Queued) :
  let release := (state.releaseQueued now draw queue).1
  let next := (state.releaseQueued now draw queue).2
  Numbered (log ++ release.map .sent) next ∧
    release.map ProvisionalSend.response ++ next.queued.map Queued.response =
      queue.map Queued.response ∧
    (next.queued ≠ [] → next.unacknowledged.isSome = true) ∧
    next.heldAnswer = state.heldAnswer ∧ next.finished = state.finished
  := by
  induction queue generalizing log state with
  | nil =>
    refine ⟨?_, rfl, by simp [releaseQueued], rfl, rfl⟩
    rw [releaseQueued, map_nil, append_nil]
    exact h.congr rfl rfl rfl rfl
  | cons queued rest ih =>
    have hdispatch := h.dispatch queued.response (fun _ : queued.reliable = true => hfree)
      queued.link now draw
    obtain ⟨hresponse, -, hheld, hfinished, hsame, hawaited⟩ :=
      dispatch_frame state queued.response queued.reliable queued.link now draw
    rw [releaseQueued]
    generalize state.dispatch queued.response queued.reliable queued.link now draw = sent at *
    obtain ⟨send, next⟩ := sent
    dsimp only at *
    cases hrseq : send.rseq.isSome
    · -- It took no number: the next in the queue follows.
      obtain ⟨hnumbered, hresponses, hleft, hheld', hfinished'⟩ :=
        ih hdispatch ((hsame hrseq).trans hfree)
      simp only [Bool.false_eq_true, if_false, map_cons, cons_append]
      rw [append_cons]
      refine ⟨hnumbered, ?_, hleft, hheld'.trans hheld, hfinished'.trans hfinished⟩
      rw [hresponse, hresponses]
    · simp only [if_true, map_cons, map_nil, cons_append, nil_append]
      refine ⟨hdispatch.congr rfl rfl rfl rfl, ?_, fun _ => hawaited hrseq, hheld, hfinished⟩
      rw [hresponse]

/-! ### The steps -/

theorem Disciplined.offer (h : Disciplined log state) (response : SipMessage) (reliable : Bool)
    (link : Option ℕ) (now : ℕ) (draw : UInt32) :
  Disciplined (log ++ (state.offer response reliable link now draw).1.events response)
    (state.offer response reliable link now draw).2
  := by
  rw [ALegReliableProvisionals.offer]
  split
  · rw [Offered.events, append_nil]
    exact h
  rename_i hfinished
  rw [Bool.not_eq_true] at hfinished
  have hall := h.all hfinished
  split
  · rename_i hqueue
    -- It waits, behind others or behind the reliable one that is awaited.
    have hlog : sentResponses (log ++ [offered response]) ++
        (state.queued ++ [Queued.mk response reliable link]).map Queued.response =
        offeredResponses (log ++ [offered response]) := by
      rw [sentResponses_append, offeredResponses_append, ← hall]
      simp [sentResponses, offeredResponses]
    have hawaited : state.unacknowledged.isSome = true := by
      rw [Bool.or_eq_true, Bool.and_eq_true, Bool.not_eq_true'] at hqueue
      rcases hqueue with hqueued | ⟨-, hpending⟩
      · apply h.queueAwaits hfinished
        simpa using hqueued
      · exact hpending
    refine ⟨⟨(h.toNumbered.append _ rfl rfl rfl).congr rfl rfl rfl rfl, hlog ▸ prefix_rfl,
      fun _ => hlog, fun _ _ => hawaited, ?_⟩, fun _ _ => hawaited⟩
    intro hfinished'
    simp [hfinished] at hfinished'
  · rename_i hqueue
    rw [Bool.or_eq_true, not_or, Bool.not_eq_true, Bool.not_eq_true, Bool.not_eq_false',
      List.isEmpty_iff, Bool.and_eq_false_iff] at hqueue
    obtain ⟨hempty, hfree⟩ := hqueue
    have hnone : reliable = true → state.unacknowledged = none := by
      rintro rfl
      simpa using hfree
    have hnumbered := (h.toNumbered.append [.offered response] rfl rfl rfl).dispatch
      response hnone link now draw
    obtain ⟨hresponse, hqueued, hheld, hfinished', hsame, hawaited⟩ :=
      dispatch_frame state response reliable link now draw
    generalize state.dispatch response reliable link now draw = sent at *
    obtain ⟨send, next⟩ := sent
    dsimp only at *
    rw [Offered.events, append_cons]
    have hlog : sentResponses (log ++ [.offered response] ++ [.sent send]) ++
        next.queued.map Queued.response =
        offeredResponses (log ++ [.offered response] ++ [.sent send]) := by
      rw [hqueued, hempty]
      rw [hempty, map_nil, append_nil] at hall
      simp [sentResponses_append, offeredResponses_append, hall]
      simp [sentResponses, offeredResponses, hresponse]
    refine ⟨⟨hnumbered, hlog ▸ prefix_rfl, fun _ => hlog, ?_, ?_⟩, ?_⟩
    · intro _ hwaits
      rw [hqueued, hempty] at hwaits
      exact absurd rfl hwaits
    · intro hfinal
      rw [hfinished', hfinished] at hfinal
      exact absurd hfinal (by decide)
    · intro _ hwaits
      rw [hheld] at hwaits
      cases hrseq : send.rseq.isSome
      · rw [hsame hrseq]
        apply h.answerAwaits hfinished hwaits
      · apply hawaited hrseq

variable {pending : Unacknowledged}

theorem Numbered.acknowledged (h : Numbered log state)
    (hpending : state.unacknowledged = some pending) (answerAcknowledged : Bool) :
  Numbered (log ++ [.acknowledged pending.rseq]) { state with
    unacknowledged := none
    answerAcknowledged := answerAcknowledged
    highestAcknowledged := some pending.rseq }
  := by
  have hsent : sentRseqs (log ++ [.acknowledged pending.rseq]) = sentRseqs log := by
    simp [sentRseqs]
  have hack : acknowledgedRseqs (log ++ [.acknowledged pending.rseq]) =
      acknowledgedRseqs log ++ [pending.rseq] :=
    acknowledgedRseqs_append _ _
  constructor
  · rw [hsent, hack, h.unacknowledged, hpending]
    simp
  · rw [hsent]
    exact h.consecutive
  · rw [hsent]
    exact h.bounds
  · rw [hsent]
    exact h.first
  · rw [hsent]
    exact h.last
  · rw [hack, getLast?_append]
    rfl
  · intro rseq hrseq
    rw [sdpRseqs_append, mem_append] at hrseq
    rw [hack, mem_append, mem_singleton]
    rcases hrseq with hrseq | hrseq
    · rcases h.sdp rseq hrseq with hacked | ⟨_, heq, hnumber, -⟩
      · apply Or.inl (Or.inl hacked)
      · rw [hpending, Option.some_inj] at heq
        apply Or.inl (Or.inr _)
        rw [heq, hnumber]
    · simp [sdpRseqs] at hrseq

theorem Ordered.acknowledged (h : Ordered log state)
    (hpending : state.unacknowledged = some pending) (answerAcknowledged : Bool) (now : ℕ)
    (draw : UInt32) :
  let mid : ALegReliableProvisionals α := { state with
    unacknowledged := none
    answerAcknowledged := answerAcknowledged
    highestAcknowledged := some pending.rseq }
  let release := (mid.releaseQueued now draw state.queued).1
  let next := (mid.releaseQueued now draw state.queued).2
  Ordered (log ++ .acknowledged pending.rseq :: release.map .sent) next ∧
    next.finished = state.finished
  := by
  intro mid release next
  have hmid : Numbered (log ++ [.acknowledged pending.rseq]) mid :=
    h.toNumbered.acknowledged hpending answerAcknowledged
  obtain ⟨hnumbered, hresponses, hawaited, hheld, hfinished⟩ :=
    hmid.releaseQueued rfl now draw state.queued
  have hsent : sentResponses (log ++ .acknowledged pending.rseq :: release.map .sent) ++
      next.queued.map Queued.response =
      sentResponses log ++ state.queued.map Queued.response := by
    rw [append_cons, sentResponses_append, sentResponses_append, sentResponses_map_sent,
      ← hresponses]
    simp [sentResponses, release, next, mid]
  have hoffered : offeredResponses (log ++ .acknowledged pending.rseq :: release.map .sent) =
      offeredResponses log := by
    simp [offeredResponses]
  rw [append_cons] at hsent hoffered ⊢
  refine ⟨⟨hnumbered, ?_, ?_, fun _ => hawaited, ?_⟩, hfinished⟩
  · rw [hsent, hoffered]
    exact h.order
  · intro hopen
    rw [hsent, hoffered]
    apply h.all (hfinished.symm.trans hopen)
  · intro hfinal
    obtain ⟨hqueued, hanswer⟩ := h.drained (hfinished.symm.trans hfinal)
    have hnil := hresponses.trans (congrArg (map Queued.response) hqueued)
    rw [map_nil, append_eq_nil_iff, map_eq_nil_iff, map_eq_nil_iff] at hnil
    exact ⟨hnil.2, hheld.trans hanswer⟩

theorem acknowledge_cases (state : ALegReliableProvisionals α) (rseq cseqNumber now : ℕ)
    (draw : UInt32) :
  (∃ pending, state.inviteCseq = some cseqNumber ∧ state.unacknowledged = some pending ∧
    pending.rseq = rseq ∧
    let mid : ALegReliableProvisionals α := { state with
      unacknowledged := none
      answerAcknowledged := state.answerAcknowledged || pending.carriesSdp
      highestAcknowledged := some rseq }
    let release := (mid.releaseQueued now draw state.queued).1
    let next := (mid.releaseQueued now draw state.queued).2
    state.acknowledge rseq cseqNumber now draw =
      if next.heldAnswer.isSome && next.answerMayGo then
        (.acknowledged rseq release next.heldAnswer pending.link, next.finish.2)
      else (.acknowledged rseq release none pending.link, next)) ∨
  (∃ outcome, (outcome = .alreadyAcknowledged ↔ state.inviteCseq = some cseqNumber ∧
      (∀ pending, state.unacknowledged = some pending → pending.rseq ≠ rseq) ∧
      (∃ first, state.firstRseq = some first ∧ first ≤ rseq) ∧
      ∃ highest, state.highestAcknowledged = some highest ∧ rseq ≤ highest) ∧
    (outcome = .alreadyAcknowledged ∨ outcome = .unmatched) ∧
    state.acknowledge rseq cseqNumber now draw = (outcome, state))
  := by
  rw [ALegReliableProvisionals.acknowledge]
  by_cases hcseq : state.inviteCseq = some cseqNumber
  · rw [if_neg (not_not.mpr hcseq)]
    cases hfilter : state.unacknowledged.filter fun pending => pending.rseq = rseq with
    | some pending =>
      rw [Option.filter_eq_some_iff, decide_eq_true_eq] at hfilter
      apply Or.inl ⟨pending, hcseq, hfilter.1, hfilter.2, rfl⟩
    | none =>
      apply Or.inr
      refine ⟨_, ?_, ?_, rfl⟩
      · have hother : ∀ pending, state.unacknowledged = some pending → pending.rseq ≠ rseq := by
          intro pending hpending
          simpa [hpending] using hfilter
        simp only [hcseq, true_and, ite_eq_left_iff, reduceCtorEq, imp_false, not_not,
          Bool.and_eq_true, Option.any_eq_true, decide_eq_true_eq]
        exact ⟨fun h => ⟨hother, h⟩, fun h => h.2⟩
      · split
        · apply Or.inl rfl
        · apply Or.inr rfl
  · rw [if_pos hcseq]
    apply Or.inr
    refine ⟨.unmatched, ?_, .inr rfl, rfl⟩
    simp [hcseq]

theorem Disciplined.acknowledge (h : Disciplined log state) (rseq cseqNumber now : ℕ)
    (draw : UInt32) :
  Disciplined (log ++ (state.acknowledge rseq cseqNumber now draw).1.events rseq)
    (state.acknowledge rseq cseqNumber now draw).2
  := by
  rcases acknowledge_cases state rseq cseqNumber now draw with ⟨pending, -, hpending, rfl, heq⟩ |
    ⟨outcome, -, hnothing, heq⟩
  · obtain ⟨hordered, -⟩ := h.toOrdered.acknowledged hpending
      (state.answerAcknowledged || pending.carriesSdp) now draw
    rw [heq]
    generalize releaseQueued now draw _ state.queued = released at *
    obtain ⟨release, next⟩ := released
    split
    · rw [events, ← append_assoc]
      cases next.heldAnswer with
      | none =>
        rw [Option.toList_none, map_nil, append_nil]
        apply hordered.finish
      | some answer => apply hordered.finish.append _ rfl rfl rfl rfl rfl
    · rename_i hstay
      rw [events, Option.toList_none, map_nil, append_nil]
      apply Disciplined.mk hordered
      intro hfinished hheld
      apply hordered.isSome_of_answerMayGo hfinished
      simpa [hheld] using hstay
  · rw [heq]
    rcases hnothing with rfl | rfl
    · apply h.append _ rfl rfl rfl rfl rfl
    · apply h.append _ rfl rfl rfl rfl rfl

/-- Every input keeps the discipline. -/
theorem Disciplined.step (h : Disciplined log state) (input : ReliableInput α) :
  Disciplined (log ++ (reliableMachine.step state input).2) (reliableMachine.step state input).1
  := by
  cases input with
  | offer response reliable link now draw => exact h.offer response reliable link now draw
  | answer answer => exact h.answer answer
  | acknowledge rseq cseqNumber now draw => exact h.acknowledge rseq cseqNumber now draw
  | finish =>
    change Disciplined (log ++ []) state.finish.2
    rw [append_nil]
    exact h.toOrdered.finish

theorem disciplined_new :
  Disciplined [] ({} : ALegReliableProvisionals α)
  where
  unacknowledged := rfl
  consecutive := ⟨0, rfl⟩
  bounds := by simp [sentRseqs]
  first := rfl
  last := rfl
  highest := rfl
  sdp := by simp [sdpRseqs]
  order := prefix_rfl
  all _ := rfl
  queueAwaits := by simp
  drained := by simp
  answerAwaits := by simp

/-! ### The 2xx and the PRACKs -/

/-- Everything offered has been sent, and every session description sent reliably was
acknowledged. -/
def Cleared (log : List (ReliableEvent α)) : Prop :=
  sentResponses log = offeredResponses log ∧ ∀ rseq ∈ sdpRseqs log, rseq ∈ acknowledgedRseqs log

theorem Ordered.cleared (h : Ordered log state) (hfinished : state.finished = false)
    (hgo : state.answerMayGo = true) :
  Cleared log
  := by
  rw [answerMayGo, Bool.and_eq_true, List.isEmpty_iff,
    Bool.not_eq_true'] at hgo
  apply And.intro
  · have hall := h.all hfinished
    rwa [hgo.1, List.map_nil, List.append_nil] at hall
  intro rseq hrseq
  rcases h.sdp rseq hrseq with hacked | ⟨pending, hpending, -, hsdp⟩
  · exact hacked
  · rw [hpending, Option.any_some, hsdp] at hgo
    exact absurd hgo.2 (by decide)

theorem Cleared.answered (h : Cleared log) (answer : α) :
  Cleared (log ++ [.answered answer])
  := by
  apply And.intro
  · rw [sentResponses_append, offeredResponses_append, h.1]
    rfl
  · rw [sdpRseqs_append, acknowledgedRseqs_append]
    simp only [sdpRseqs, acknowledgedRseqs, filterMap_cons, filterMap_nil, append_nil]
    exact h.2

theorem Disciplined.cleared (h : Disciplined log state) {input : ReliableInput α} {answer : α}
    (hanswered : answered answer ∈ (reliableMachine.step state input).2)
    (hfinished : state.finished = false) :
  Cleared (log ++ (reliableMachine.step state input).2)
  := by
  cases input with
  | offer response reliable link now draw =>
    simp only [reliableMachine] at hanswered
    cases hoffered : (state.offer response reliable link now draw).1 <;>
      simp [hoffered, Offered.events] at hanswered
  | answer given =>
    change _ ∈ (state.answer given).1.events at hanswered
    change Cleared (log ++ (state.answer given).1.events)
    rw [ALegReliableProvisionals.answer, hfinished, Bool.false_or] at hanswered ⊢
    cases hgo : state.answerMayGo
    · simp [hgo, AnswerStep.events] at hanswered
    · apply (h.toOrdered.cleared hfinished hgo).answered
  | acknowledge rseq cseqNumber now draw =>
    change _ ∈ (state.acknowledge rseq cseqNumber now draw).1.events rseq at hanswered
    change Cleared (log ++ (state.acknowledge rseq cseqNumber now draw).1.events rseq)
    rcases acknowledge_cases state rseq cseqNumber now draw with
      ⟨pending, -, hpending, rfl, heq⟩ | ⟨outcome, -, hnothing, heq⟩
    · obtain ⟨hordered, hsame⟩ := h.toOrdered.acknowledged hpending
        (state.answerAcknowledged || pending.carriesSdp) now draw
      rw [heq] at hanswered ⊢
      generalize releaseQueued now draw _ state.queued = released at *
      obtain ⟨release, next⟩ := released
      cases hgo : next.answerMayGo
      · simp [hgo, events] at hanswered
      cases hheld : next.heldAnswer with
      | none => simp [hheld, events] at hanswered
      | some held =>
      rw [Option.isSome_some, Bool.true_and, if_pos rfl, events, ← append_assoc]
      apply (hordered.cleared (hsame.trans hfinished) hgo).answered
    · rw [heq] at hanswered
      rcases hnothing with rfl | rfl <;> simp [events] at hanswered
  | finish => simp [reliableMachine] at hanswered

theorem Numbered.mem_acknowledged_iff (h : Numbered log state) (rseq : ℕ) :
  rseq ∈ acknowledgedRseqs log ↔
    (∀ pending, state.unacknowledged = some pending → pending.rseq ≠ rseq) ∧
    (∃ first, state.firstRseq = some first ∧ first ≤ rseq) ∧
    ∃ highest, state.highestAcknowledged = some highest ∧ rseq ≤ highest
  := by
  obtain ⟨first, hrange⟩ := h.consecutive
  generalize (sentRseqs log).length = n at hrange
  have hsplit := h.unacknowledged
  rw [hrange, eq_comm, eq_comm, range'_eq_append_iff] at hsplit
  obtain ⟨k, hk, hacked, hpending⟩ := hsplit
  rw [Nat.mul_one] at hpending
  have hafter : ∀ pending, state.unacknowledged = some pending → first + k ≤ pending.rseq := by
    intro pending hsome
    have hmem : pending.rseq ∈ range' (first + k) (n - k) := by
      rw [← hpending, hsome]
      simp
    exact (mem_range'_1.mp hmem).1
  rw [h.first, h.highest, hrange, hacked, head?_range', getLast?_range', mem_range'_1]
  constructor
  · rintro ⟨hle, hlt⟩
    refine ⟨?_, ⟨first, if_neg (by omega), hle⟩, first + k - 1, if_neg (by omega), by omega⟩
    intro pending hsome heq
    have hge := hafter pending hsome
    omega
  · rintro ⟨-, ⟨low, hlow, hle⟩, high, hhigh, hge⟩
    rw [Option.ite_none_left_eq_some, Option.some_inj] at hlow hhigh
    omega

/-- After anything that happened: the provisionals are numbered and left in order, what waits awaits
a PRACK, the 2xx leaves nothing behind, and a PRACK is known for exactly the numbers it was given
for. -/
theorem reliable_discipline (inputs : List (ReliableInput α)) :
  let state := reliableMachine.run {} inputs
  let log := reliableMachine.outputs {} inputs
  Disciplined log state ∧
    (∀ input answer, answered answer ∈ (reliableMachine.step state input).2 →
      state.finished = false → Cleared (log ++ (reliableMachine.step state input).2)) ∧
    ∀ rseq cseqNumber now draw,
      (state.acknowledge rseq cseqNumber now draw).1 = .alreadyAcknowledged ↔
        state.inviteCseq = some cseqNumber ∧ rseq ∈ acknowledgedRseqs log
  := by
  intro state log
  have h : Disciplined log state :=
    Machine.logged (fun _ _ input h => h.step input) disciplined_new inputs
  refine ⟨h, fun input answer hanswered hfinished => h.cleared hanswered hfinished, ?_⟩
  intro rseq cseqNumber now draw
  rw [h.toNumbered.mem_acknowledged_iff]
  rcases acknowledge_cases state rseq cseqNumber now draw with ⟨pending, -, hpending, rfl, heq⟩ |
    ⟨outcome, hiff, -, heq⟩
  · have hnot : (state.acknowledge pending.rseq cseqNumber now draw).1 ≠ .alreadyAcknowledged := by
      rw [heq]
      split <;> simp
    rw [iff_false_left hnot]
    rintro ⟨-, hother, -⟩
    apply hother pending hpending rfl
  · rw [heq]
    exact hiff

/-- A ringing response to an INVITE of number 7, with a body. -/
def ringing (body : Bytes) : SipMessage where
  startLine := .response ⟨.sip20, 180, "Ringing".toList, false⟩
  headers := SipHeaders.new.add "CSeq".toList "7 INVITE".toList
  body := body

/-- Two reliable provisionals and a 2xx, and the PRACK of the first. -/
def answeredBehindQueued : List (ReliableInput Unit) :=
  [.offer (ringing []) true none 0 0, .offer (ringing []) true none 0 0, .answer (),
    .acknowledge 1 7 0 0]

/-- A reliable provisional with a session description, a final response and a 2xx. -/
def answeredAfterFinal : List (ReliableInput Unit) :=
  [.offer (ringing [0]) true none 0 0, .finish, .answer ()]

/-- A 2xx held behind a queued provisional leaves with that one, which is not acknowledged yet; and
one that comes after a final response leaves although a session description awaits its PRACK. -/
theorem answered_before_acknowledged :
  (.answered () ∈ reliableMachine.outputs {} answeredBehindQueued ∧
    sentRseqs (reliableMachine.outputs {} answeredBehindQueued) = [1, 2] ∧
    acknowledgedRseqs (reliableMachine.outputs {} answeredBehindQueued) = [1]) ∧
  (.answered () ∈ reliableMachine.outputs {} answeredAfterFinal ∧
    sdpRseqs (reliableMachine.outputs {} answeredAfterFinal) = [1] ∧
    acknowledgedRseqs (reliableMachine.outputs {} answeredAfterFinal) = [])
  := by
  decide +kernel

end Siphon.B2bua
